import LexicalLisp.Proofs.Console.LineByLine
import LexicalLisp.Proofs.Sessions.Texts

/-!
# Stopping and going on after a fault

Two runs of a text take its items in turn and differ in one thing: at the first fault one of them
stops. So up to there they put out the same, and what the other one puts out afterwards only comes
behind it (`exists_stopped_of_runItems`). Whether all went well is known at the first fault.

The run that stops is the evaluation of the text with everything shown on the way
(`runItems_stopped`): it leaves the same store, and the last thing it puts out is the value of the
text or the report of its fault (`Settles`). They part over a text without items, which has no value
but is no failure either.
-/

namespace LexicalLisp.Console

variable {depth : Nat} {o : Options} {session : Session} {item : Except ReadError Datum}
  {items : List (Except ReadError Datum)} {s s' : Store} {run : Run Value} {es : List Event}
  {results : List (Except Fault Value)}

/-! ## One item and the rest -/

/-- What a run puts out about an item. -/
def Options.account (o : Options) (session : Session) (item : Except ReadError Datum)
    (run : Run Value) : List Output :=
  o.preview session item ++ o.watched run.events ++ [o.resultOutput run.result]

/-- The part of a run that is about an item. -/
def Options.single (o : Options) (session : Session) (item : Except ReadError Datum)
    (run : Run Value) : Batch :=
  ⟨run.result.isOk, o.account session item run, run.store⟩

theorem isOk_eq_true_iff {α β : Type} {x : Except α β} : x.isOk = true ↔ ∃ v, x = .ok v := by
  cases x with
  | error fault => exact ⟨nofun, nofun⟩
  | ok v => exact ⟨fun _ ↦ ⟨v, rfl⟩, fun _ ↦ rfl⟩

theorem runItems_cons_of_goes_on (hitem : session.evalItem depth item s = some run)
    (hgo : run.result.isOk = true ∨ o.keepGoing = true) :
    runItems depth o session (item :: items) s =
      (runItems depth o session items run.store).map (o.single session item run).append := by
  rw [runItems, hitem]
  simp only [Bool.or_eq_true, hgo, if_true]
  cases runItems depth o session items run.store <;> rfl

theorem runItems_cons_of_stops (hitem : session.evalItem depth item s = some run)
    (hfault : run.result.isOk = false) (hstop : o.keepGoing = false) :
    runItems depth o session (item :: items) s = some (o.single session item run) := by
  rw [runItems, hitem, Options.single]
  simp only [hfault, hstop]
  rfl

/-! ## Going on -/

theorem exists_runItems_of_lists (hkeep : o.keepGoing = true)
    (h : session.Lists depth items s results s' es) :
    ∃ all, runItems depth o session items s = some all ∧ all.store = s' ∧
      (all.success = true ↔ ∀ result ∈ results, ∃ v, result = .ok v) := by
  induction h with
  | nil => exact ⟨_, rfl, rfl, fun _ ↦ List.forall_mem_nil _, fun _ ↦ rfl⟩
  | @cons item _ _ _ r _ _ hitem _ ih =>
    obtain ⟨all, hall, hstore, hsuccess⟩ := ih
    rw [runItems_cons_of_goes_on (Session.evalItem_eq_some_iff.mpr hitem) (.inr hkeep), hall]
    refine ⟨_, rfl, hstore, ?_⟩
    rw [List.forall_mem_cons, ← hsuccess, ← isOk_eq_true_iff]
    exact Bool.and_eq_true_iff

/-- A run that stops has put out the beginning of what is put out by one that goes on. -/
theorem exists_stopped_of_runItems {all : Batch}
    (h : runItems depth { o with keepGoing := true } session items s = some all) :
    ∃ stopped, runItems depth { o with keepGoing := false } session items s = some stopped ∧
      stopped.success = all.success ∧ stopped.transcript <+: all.transcript := by
  induction items generalizing s all with
  | nil =>
    cases h
    exact ⟨_, rfl, rfl, List.prefix_rfl⟩
  | cons item items ih =>
    cases hitem : session.evalItem depth item s with
    | none =>
      rw [runItems, hitem] at h
      cases h
    | some run =>
      rw [runItems_cons_of_goes_on hitem (.inr rfl), Option.map_eq_some_iff] at h
      obtain ⟨others, hothers, rfl⟩ := h
      cases hok : run.result.isOk with
      | true =>
        obtain ⟨stopped, hstopped, hsuccess, hprefix⟩ := ih hothers
        rw [runItems_cons_of_goes_on hitem (.inl hok), hstopped]
        exact ⟨_, rfl, congrArg (run.result.isOk && ·) hsuccess,
          (List.prefix_append_right_inj _).mpr hprefix⟩
      | false =>
        rw [runItems_cons_of_stops hitem hok rfl]
        refine ⟨_, rfl, ?_, List.prefix_append _ _⟩
        change run.result.isOk = (run.result.isOk && others.success)
        rw [hok, Bool.false_and]

/-! ## Stopping -/

/-- The reports in a transcript. -/
abbrev reports (transcript : List Output) : List String := transcript.filterMap Output.reportText?

/-- The texts shown in a transcript. -/
abbrev shownTexts (transcript : List Output) : List String :=
  transcript.filterMap Output.shownText?

theorem reports_append (first second : List Output) :
    reports (first ++ second) = reports first ++ reports second :=
  List.filterMap_append

theorem reports_preview (o : Options) (session : Session) (item : Except ReadError Datum) :
    reports (o.preview session item) = [] := by
  cases item with
  | error e => rfl
  | ok d =>
    rw [Options.preview, reports_append, List.append_eq_nil_iff]
    constructor
    · split <;> rfl
    · split
      next => rfl
      next => split <;> rfl

theorem reports_watched (o : Options) (es : List Event) : reports (o.watched es) = [] := by
  rw [Options.watched, reports, List.filterMap_map]
  exact List.filterMap_none _

/-- Nothing is reported before an item has a result. -/
theorem reports_preview_append_watched (o : Options) (session : Session)
    (item : Except ReadError Datum) (es : List Event) :
    reports (o.preview session item ++ o.watched es) = [] := by
  rw [reports_append, reports_preview, reports_watched, List.append_nil]

theorem reports_account {v : Value} (hrun : run.result = .ok v) :
    reports (o.account session item run) = [] := by
  rw [Options.account, hrun, reports_append, reports_preview_append_watched]
  rfl

/-- The outcome and the transcript of a run that stops at the first fault, by the result of
evaluating the items behind some last value. -/
inductive Settles (o : Options) (last : Option Value) (items : List (Except ReadError Datum)) :
    Bool → List Output → Except Fault Value → Prop
  /-- Without items there is nothing to put out, and it is no failure. -/
  | nothing (h : items = []) : Settles o last items true [] (Session.lastResult last)
  /-- The value is put out at the end, and there is no report. -/
  | value {before : List Output} (v : Value) (h : items ≠ []) (hbefore : reports before = []) :
    Settles o last items true (before ++ [.shown (o.valueText v)]) (.ok v)
  /-- The fault is reported at the end, and there is no other report. -/
  | fault {before : List Output} (fault : Fault) (h : items ≠ []) (hbefore : reports before = []) :
    Settles o last items false (before ++ [.report fault.report]) (.error fault)

theorem Settles.single {last : Option Value} {fault : Fault} (hrun : run.result = .error fault) :
    Settles o last (item :: items) false (o.account session item run) (.error fault) := by
  rw [Options.account, hrun]
  exact .fault fault (List.cons_ne_nil _ _) (reports_preview_append_watched ..)

theorem Settles.cons {last : Option Value} {v : Value} {success : Bool} {transcript : List Output}
    {result : Except Fault Value} (h : Settles o (some v) items success transcript result)
    (hrun : run.result = .ok v) :
    Settles o last (item :: items) success (o.account session item run ++ transcript) result := by
  have hnil : reports (o.account session item run) = [] := reports_account hrun
  cases h with
  | nothing =>
    -- it is the last item, and its value is what is put out at the end
    rw [List.append_nil, Options.account, hrun]
    exact .value v (List.cons_ne_nil _ _) (reports_preview_append_watched ..)
  | value v' _ hbefore =>
    rw [← List.append_assoc]
    refine .value v' (List.cons_ne_nil _ _) ?_
    rw [reports_append, hnil, hbefore, List.append_nil]
  | fault fault _ hbefore =>
    rw [← List.append_assoc]
    refine .fault fault (List.cons_ne_nil _ _) ?_
    rw [reports_append, hnil, hbefore, List.append_nil]

/-- A run that stops at the first fault is the evaluation of the items up to there. -/
theorem runItems_stopped (last : Option Value) :
    Option.Rel (fun stopped r ↦ stopped.store = r.store ∧
        Settles o last items stopped.success stopped.transcript r.result)
      (runItems depth { o with keepGoing := false } session items s)
      (session.evalItems depth last items s) := by
  induction items generalizing s last with
  | nil =>
    cases last <;> exact .some ⟨rfl, .nothing rfl⟩
  | cons item items ih =>
    rw [Session.evalItems, Action.bind_apply]
    cases hitem : session.evalItem depth item s with
    | none =>
      rw [runItems, hitem]
      exact .none
    | some run =>
      obtain ⟨fault | v, s', es⟩ := run
      · rw [runItems_cons_of_stops hitem rfl rfl]
        exact .some ⟨rfl, .single rfl⟩
      · rw [runItems_cons_of_goes_on hitem (.inl rfl)]
        dsimp only
        have hrest := ih (s := s') (some v)
        generalize runItems depth _ session items s' = stopped? at hrest ⊢
        generalize session.evalItems depth (some v) items s' = r? at hrest ⊢
        cases hrest with
        | none => exact .none
        | some h => exact .some ⟨h.1, h.2.cons rfl⟩

/-- **Going on only adds.** A run that stops at the first fault comes to an end if and only if the
evaluation of the text does, and it leaves the same store. The last thing it puts out is the value
of the text, and then there is no report, or it is the report of the fault of the text, and then
there is no other. Over a text without items it puts out nothing and succeeds.

If all items of the text have results, then both runs come to an end. Each succeeds if and only if
all these results are values. What is put out by the run that stops, as a whole and on each of the
two channels, is the beginning of what is put out by the run that goes on. -/
theorem keep_going_only_adds (depth : Nat) (o : Options) (session : Session) (source : String)
    (s : Store) :
    Option.Rel
      (fun stopped r ↦ stopped.store = r.store ∧
        Settles o none (Datum.items source.toList) stopped.success stopped.transcript r.result)
      (runText depth { o with keepGoing := false } session source.toList s)
      (session.evalString depth source s) ∧
    ∀ results s' es, session.forms depth source s = some ⟨.ok results, s', es⟩ →
      ∃ all stopped,
        runText depth { o with keepGoing := true } session source.toList s = some all ∧
        runText depth { o with keepGoing := false } session source.toList s = some stopped ∧
        all.store = s' ∧ stopped.success = all.success ∧
        (all.success = true ↔ ∀ result ∈ results, ∃ v, result = .ok v) ∧
        stopped.transcript <+: all.transcript ∧
        shownTexts stopped.transcript <+: shownTexts all.transcript ∧
        reports stopped.transcript <+: reports all.transcript := by
  refine ⟨runItems_stopped none, fun results s' es h ↦ ?_⟩
  obtain ⟨_, hresults, hlists⟩ := Session.evalEach_eq_some_iff.mp h
  cases hresults
  obtain ⟨all, hall, hstore, hsuccess⟩ :=
    exists_runItems_of_lists (o := { o with keepGoing := true }) rfl hlists
  obtain ⟨stopped, hstopped, heq, hprefix⟩ := exists_stopped_of_runItems hall
  exact ⟨all, stopped, hall, hstopped, hstore, heq, hsuccess, hprefix, hprefix.filterMap _,
    hprefix.filterMap _⟩

/-- A name without a value between two forms that have one, with the expressions shown. The run that
stops has put out what comes up to the report, and not what comes behind it. -/
theorem keep_going_only_adds_unbound_name :
    let c := Course.start .full
    let source := "#t y #f"
    let o : Options := ⟨false, true, false, false, 0⟩
    ∃ results s' es all stopped, c.session.forms 2 source c.store = some ⟨.ok results, s', es⟩ ∧
      runText 2 { o with keepGoing := true } c.session source.toList c.store = some all ∧
      runText 2 { o with keepGoing := false } c.session source.toList c.store = some stopped ∧
      stopped.transcript = [.shown "boolean: true\n", .shown "#t\n", .shown "symbol: y\n",
        .report "Unbound symbol: y"] ∧
      shownTexts stopped.transcript <+: shownTexts all.transcript ∧
      reports stopped.transcript <+: reports all.transcript ∧
      stopped.success = all.success ∧ all.store = s' := by
  intro c source o
  have hitems : Datum.items source.toList =
      [.ok (.bool true), .ok (.symbol "y"), .ok (.bool false)] := by
    rw [Datum.items_of_read (show Datum.read source.toList = .ok (.bool true, " y #f".toList) by
        decide +kernel),
      Datum.items_of_read (show Datum.read _ = .ok (.symbol "y", " #f".toList) by decide +kernel),
      Datum.items_of_read (show Datum.read _ = .ok (.bool false, []) by decide +kernel),
      Datum.items_of_layout rfl]
  obtain ⟨⟨result, s', es⟩, hforms⟩ : ∃ r, c.session.forms 2 source c.store = some r := by
    rw [Session.forms, hitems]
    exact Option.isSome_iff_exists.mp (by decide +kernel)
  obtain ⟨results, rfl, -⟩ := Session.evalEach_eq_some_iff.mp hforms
  obtain ⟨-, hboth⟩ := keep_going_only_adds 2 o c.session source c.store
  obtain ⟨all, stopped, hall, hstopped, hstore, hsuccess, -, -, hshown, hreports⟩ :=
    hboth results s' es hforms
  refine ⟨results, s', es, all, stopped, hforms, hall, hstopped, ?_, hshown, hreports, hsuccess,
    hstore⟩
  have htranscript : (runText 2 { o with keepGoing := false } c.session source.toList c.store).map
      Batch.transcript = some [.shown "boolean: true\n", .shown "#t\n", .shown "symbol: y\n",
        .report "Unbound symbol: y"] := by
    rw [runText, hitems]
    decide +kernel
  rw [hstopped] at htranscript
  exact Option.some.inj htranscript

end LexicalLisp.Console
