import LexicalLisp.Proofs.Evaluation.Genuine
import LexicalLisp.Proofs.Sessions.Course

/-!
# Faults before and during evaluation

A form of a text can fail at three stages: it cannot be read, it is no form, or its evaluation
fails. The first two are found out before anything is evaluated, and so they leave the store as it
is, emit no event, and have an empty trail. The causes of the last one are of other kinds, and more
text would mend none of them.

The second part is a matter of the whole session. Evaluation comes upon the bodies of closures that
were made long before, and only because all of these were recognised in texts is there no literal
without a value among them (`Discipline.Rooted.genuine`).
-/

namespace LexicalLisp

open Relation LexicalLisp.Action LexicalLisp.Discipline

/-! ## The items of a text in turn -/

namespace Session

/-- While items are evaluated in turn from a store on, this item is evaluated in this store, with
this run. -/
inductive Processes (session : Session) (depth : Nat) : List (Except ReadError Datum) → Store →
    Except ReadError Datum → Store → Run Value → Prop
  | here {item : Except ReadError Datum} {rest : List (Except ReadError Datum)} {s : Store}
    {r : Run Value} (hr : session.evalItem depth item s = some r) :
    Processes session depth (item :: rest) s item s r
  | later {first item : Except ReadError Datum} {rest : List (Except ReadError Datum)}
    {s s' : Store} {r₀ r : Run Value} (hfirst : session.evalItem depth first s = some r₀)
    (h : Processes session depth rest r₀.store item s' r) :
    Processes session depth (first :: rest) s item s' r

variable {session : Session} {depth : Nat} {items : List (Except ReadError Datum)} {s s' : Store}
  {item : Except ReadError Datum} {r : Run Value}

theorem Processes.mem (h : session.Processes depth items s item s' r) : item ∈ items := by
  induction h with
  | here => exact List.mem_cons_self
  | later _ _ ih => exact List.mem_cons_of_mem _ ih

theorem Processes.evalItem_eq (h : session.Processes depth items s item s' r) :
    session.evalItem depth item s' = some r := by
  induction h with
  | here hr => exact hr
  | later _ _ ih => exact ih

theorem Processes.store {I : Inputs} {D : Rooted I} {source : List Char}
    (h : session.Processes depth items s item s' r) (hitems : items ⊆ Datum.items source)
    (hs : D.store s) (hroot : D.root s session.root) : D.store s' := by
  induction h with
  | here => exact hs
  | later hfirst _ ih =>
    have hend := Rooted.obeys_evalItem depth (hitems List.mem_cons_self) hs hroot _ hfirst
    exact ih (List.subset_of_cons_subset hitems) hend.store (D.root_later hend.later hroot)

/-- Items that are evaluated up to the first fault end in the fault of one of them, unless there is
none. -/
theorem exists_processes_of_evalItems {last : Option Value} {fault : Fault}
    (hr : session.evalItems depth last items s = some r) (hfault : r.result = .error fault) :
    (items = [] ∧ last = none ∧ fault = .ofCause (.unreadable .unexpectedEnd)) ∨
      ∃ item s' r', session.Processes depth items s item s' r' ∧ r'.result = .error fault ∧
        r'.store = r.store := by
  induction items generalizing s last r with
  | nil =>
    cases last with
    | none =>
      cases hr
      cases hfault
      exact .inl ⟨rfl, rfl, rfl⟩
    | some v =>
      cases hr
      cases hfault
  | cons item items ih =>
    obtain ⟨fault', hitem, hresult⟩ | ⟨v, t, es, r', hitem, hrest, rfl⟩ := bind_eq_some_iff.mp hr
    · cases hresult.symm.trans hfault
      exact .inr ⟨item, s, _, .here hitem, rfl, rfl⟩
    -- something has been evaluated before the rest, so the rest has a value even if it is empty
    · obtain ⟨-, hlast, -⟩ | ⟨item', s', r'', hrun, hend⟩ := ih hrest hfault
      · cases hlast
      · exact .inr ⟨item', s', r'', .later hitem hrun, hend⟩

/-- Every result of a text is that of one of its items. -/
theorem exists_processes_of_evalEach {results : List (Except Fault Value)} {es : List Event}
    (hr : session.evalEach depth items s = some ⟨.ok results, s', es⟩)
    {result : Except Fault Value} (hresult : result ∈ results) :
    ∃ item t r, session.Processes depth items s item t r ∧ r.result = result := by
  induction items generalizing s s' es results with
  | nil =>
    cases hr
    cases hresult
  | cons item items ih =>
    obtain ⟨_, -, habsurd⟩ | ⟨first, t, es₁, r₁, hfirst, hrest, heq⟩ := bind_eq_some_iff.mp hr
    · cases habsurd
    obtain ⟨r₀, hitem, hr₀⟩ := attempt_eq_some_iff.mp hfirst
    cases hr₀
    have hok : .ok results = r₁.result := congrArg Run.result heq
    obtain ⟨_, -, habsurd⟩ | ⟨others, t', es₂, r₂, hothers, hpure, rfl⟩ :=
      bind_eq_some_iff.mp hrest
    · cases hok.trans habsurd
    · cases hpure
      cases hok
      rcases List.mem_cons.mp hresult with rfl | hresult
      · exact ⟨item, s, r₀, .here hitem, rfl⟩
      · obtain ⟨item', t'', r, hrun, hr⟩ := ih hothers hresult
        exact ⟨item', t'', r, .later hitem hrun, hr⟩

end Session

/-! ## Sessions keep to genuine expressions -/

theorem Expr.Spelled.genuine {e : Expr} (h : e.Spelled) : e.Genuine fun _ ↦ True := by
  obtain ⟨source, table, d, -, he⟩ := h
  exact (recognised_of_ofDatum he).genuine ⟨fun _ _ _ ↦ trivial, fun _ ↦ trivial⟩ trivial

/-- The same discipline with no demand on faults. -/
def Discipline.lax (D : Discipline) : Discipline :=
  { D with
    cause := fun _ ↦ True
    cause_of_dynamic := fun _ _ ↦ trivial
    literal := fun h ↦ ⟨(D.literal h).1, fun _ _ ↦ trivial⟩
    symbol := fun hs h ↦ ⟨(D.symbol hs h).1, fun _ ↦ trivial⟩ }

/-- A session to which only genuine values and genuine expressions are handed in keeps to genuine
stores. -/
def Discipline.Rooted.ofGenuine {I : Inputs} (P : Datum → Prop)
    (hvalue : ∀ v, I.value v → v.Genuine P) (hexpr : ∀ e, I.expr e → e.Genuine P)
    (hspelled : ∀ e : Expr, e.Spelled → e.Genuine P) : Rooted I where
  toDiscipline := (Discipline.genuine P).lax
  root _ _ := True
  root_later _ _ := trivial
  cause_any _ := trivial
  value_input _ := hvalue
  expr_input _ h := hexpr _ h
  expr_spelled _ h := hspelled _ h
  lookup_root hs _ h := hs.of_lookup? h
  bind_root name hs _ hv := ⟨trivial, hs.bind _ name hv⟩
  newForm hs := ⟨trivial, hs.newForm⟩
  newRoot hs := ⟨trivial, hs.newFrame none, trivial⟩

/-- A session to which nothing is handed in but data and expressions that some text spells has a
genuine store. -/
def Discipline.Rooted.genuine : Rooted .spelled :=
  .ofGenuine (fun _ ↦ True)
    (fun v h ↦ by
      cases v with
      | closure c => exact absurd rfl (h c)
      | _ => trivial)
    (fun _ h ↦ h.genuine) fun _ h ↦ h.genuine

theorem Discipline.Rooted.ofGenuine_start {I : Inputs} {P : Datum → Prop}
    {hvalue : ∀ v, I.value v → v.Genuine P} {hexpr : ∀ e, I.expr e → e.Genuine P}
    {hspelled : ∀ e : Expr, e.Spelled → e.Genuine P} (table : OperatorTable) :
    (Rooted.ofGenuine P hvalue hexpr hspelled).Holds (.start table) where
  store := Store.genuine_empty.newFrame none
  root := trivial
  obtained _ h := nomatch h

theorem Discipline.Rooted.genuine_start (table : OperatorTable) :
    Rooted.genuine.Holds (.start table) :=
  ofGenuine_start table

namespace Session

variable {session : Session} {s : Store}

theorem dynamic_of_evalForm {depth : Nat} {form : Form} (hs : s.Genuine fun _ ↦ True)
    (hform : form.expr.Spelled) {r : Run Value} (hr : session.evalForm depth form s = some r)
    {fault : Fault} (hfault : r.result = .error fault) : fault.cause.Dynamic := by
  have hobeys : (session.evalForm depth form).Obeys (.genuine fun _ ↦ True) s _ :=
    ensures_emit_bind (eval_obeys (.genuine _) depth _ session.root form.expr s hs hform.genuine)
  exact (hobeys r hr).cause fault hfault

/-- How an item that is evaluated in a store may fail: either it is refused at once, or it is a form
that fails while it is evaluated. -/
structure FailsInStages (session : Session) (item : Except ReadError Datum) (s : Store)
    (r : Run Value) (fault : Fault) : Prop where
  /-- What is refused is no form, and nothing has happened. -/
  refused : fault.cause.Static → (∀ e, session.buildItem item ≠ .ok e) ∧
    r.store = s ∧ r.events = [] ∧ fault.trail = []
  /-- A form fails for a cause that more text does not mend. -/
  evaluated : ∀ e, session.buildItem item = .ok e →
    fault.cause.Dynamic ∧ fault.cause.isIncomplete = false

theorem failsInStages_of_evalItem {depth : Nat} {item : Except ReadError Datum}
    (hspelled : ∀ e, session.buildItem item = .ok e → e.Spelled) (hs : s.Genuine fun _ ↦ True)
    {r : Run Value} (hr : session.evalItem depth item s = some r) {fault : Fault}
    (hfault : r.result = .error fault) : session.FailsInStages item s r fault := by
  rw [evalItem] at hr
  cases hbuild : session.buildItem item with
  | error cause =>
    have hno : ∀ e, session.buildItem item ≠ .ok e := fun e he ↦ nomatch hbuild.symm.trans he
    rw [hbuild] at hr
    cases hr
    cases hfault
    exact ⟨fun _ ↦ ⟨hno, rfl, rfl, rfl⟩, fun e he ↦ absurd he (hno e)⟩
  | ok e =>
    rw [hbuild] at hr
    obtain ⟨_, habsurd, -⟩ | ⟨_, _, _, r₁, hbuilt, hr₁, rfl⟩ := bind_eq_some_iff.mp hr
    · cases habsurd
    cases hbuilt
    -- a number is drawn for the form, which cannot fail, and then it is evaluated
    obtain ⟨_, habsurd, -⟩ | ⟨form, _, _, r₂, henter, hr₂, rfl⟩ := bind_eq_some_iff.mp hr₁
    · cases habsurd
    cases henter
    have hdynamic : fault.cause.Dynamic :=
      dynamic_of_evalForm hs.newForm (hspelled e hbuild) hr₂ hfault
    exact ⟨fun hstatic ↦ absurd hstatic hdynamic.not_static,
      fun _ _ ↦ ⟨hdynamic, hdynamic.isIncomplete_eq⟩⟩

end Session

/-- **Faults before and during evaluation.** In any session in which nothing was handed in but data
and expressions that some text spells, take an item of a text at the time when it is evaluated. If
it fails for a cause that has nothing to do with evaluation, then it is no form, the store is as it
was, there was no event, and the trail is empty. If it is a form, it fails for one of six causes,
and none of them calls for more text.

The faults of texts are the faults of their items, except that a text without items has one of its
own; and forms that are evaluated again and closures that are applied fail like forms. -/
theorem faults_come_in_stages {table : OperatorTable} {c : Course}
    (hc : ReflTransGen (Course.Step .spelled) (.start table) c) (depth : Nat) :
    (∀ source item s r fault,
      c.session.Processes depth (Datum.items source) c.store item s r →
      r.result = .error fault → c.session.FailsInStages item s r fault) ∧
    (∀ source r fault, c.session.evalString depth source c.store = some r →
      r.result = .error fault →
      (Datum.items source.toList = [] ∧ fault = .ofCause (.unreadable .unexpectedEnd)) ∨
        ∃ item s r', c.session.Processes depth (Datum.items source.toList) c.store item s r' ∧
          r'.result = .error fault ∧ r'.store = r.store) ∧
    (∀ source results s es, c.session.forms depth source c.store = some ⟨.ok results, s, es⟩ →
      ∀ fault, .error fault ∈ results →
        ∃ item s r', c.session.Processes depth (Datum.items source.toList) c.store item s r' ∧
          r'.result = .error fault) ∧
    (∀ form r fault, form.expr.Spelled → c.session.evalForm depth form c.store = some r →
      r.result = .error fault → fault.cause.Dynamic ∧ fault.cause.isIncomplete = false) ∧
    ∀ closure args r fault, .closure closure ∈ c.obtained →
      (∀ v ∈ args, c.Offers .spelled v) → closure.run depth args c.store = some r →
      r.result = .error fault → fault.cause.Dynamic ∧ fault.cause.isIncomplete = false := by
  obtain ⟨-, hgenuine⟩ := (Rooted.genuine_start table).run hc
  have hs : c.store.Genuine fun _ ↦ True := hgenuine.store
  refine ⟨?_, ?_, ?_, ?_, ?_⟩
  · intro source item s r fault hrun hfault
    refine Session.failsInStages_of_evalItem (fun e ↦ Session.spelled_of_buildItem hrun.mem)
      (hrun.store (List.Subset.refl _) hgenuine.store hgenuine.root) hrun.evalItem_eq hfault
  · intro source r fault hr hfault
    obtain ⟨hnil, -, heq⟩ | hrun := Session.exists_processes_of_evalItems hr hfault
    · exact .inl ⟨hnil, heq⟩
    · exact .inr hrun
  · intro source results s es hr fault hfault
    exact Session.exists_processes_of_evalEach hr hfault
  · intro form r fault hform hr hfault
    have hdynamic := Session.dynamic_of_evalForm hs hform hr hfault
    exact ⟨hdynamic, hdynamic.isIncomplete_eq⟩
  · intro closure args r fault hclosure hargs hr hfault
    have hobeys := closure.run_obeys (Discipline.genuine _) depth hs
      (hgenuine.obtained _ hclosure) (fun v hv ↦ hgenuine.offered (hargs v hv))
    have hdynamic : fault.cause.Dynamic := (hobeys r hr).cause fault hfault
    exact ⟨hdynamic, hdynamic.isIncomplete_eq⟩

/-- A function is defined, and then called with an argument that is no form: the call is refused as
a whole, and the store remains the one in which the function is bound. -/
theorem faults_come_in_stages_malformed_argument :
    let c := Course.start .full
    let items := Datum.items "(define f (lambda (x) x)) (f (if))".toList
    ∃ item s r fault, c.session.Processes 2 items c.store item s r ∧ r.result = .error fault ∧
      (s.local? 0 "f").isSome = true ∧ fault.cause = .malformed (.conditionalCount 0) ∧
      r.store = s ∧ r.events = [] ∧ fault.trail = [] := by
  intro c items
  let definition : Datum := .list [.symbol "define", .symbol "f",
    .list [.symbol "lambda", .list [.symbol "x"], .symbol "x"]]
  let call : Datum := .list [.symbol "f", .list [.symbol "if"]]
  have hfirst : Datum.read "(define f (lambda (x) x)) (f (if))".toList =
      .ok (definition, " (f (if))".toList) := by cbv
  have hsecond : Datum.read " (f (if))".toList = .ok (call, []) := by cbv
  have hitems : items = [.ok definition, .ok call] := by
    change Datum.items _ = _
    rw [Datum.items_of_read hfirst, Datum.items_of_read hsecond, Datum.items_of_layout rfl]
  let fault : Fault := .ofCause (.malformed (.conditionalCount 0))
  obtain ⟨r, hr, hbound⟩ : ∃ r, c.session.evalItem 2 (.ok definition) c.store = some r ∧
      (r.store.local? 0 "f").isSome = true := ⟨_, rfl, by decide⟩
  have hrefused : c.session.evalItem 2 (.ok call) r.store = some ⟨.error fault, r.store, []⟩ := rfl
  have hrun : c.session.Processes 2 items c.store (.ok call) r.store
      ⟨.error fault, r.store, []⟩ := by
    rw [hitems]
    exact .later hr (.here hrefused)
  obtain ⟨hstages, -⟩ := faults_come_in_stages (c := c) .refl 2
  obtain ⟨-, hstore, hevents, htrail⟩ := (hstages _ _ _ _ fault hrun rfl).refused (.malformed _)
  exact ⟨_, _, _, fault, hrun, rfl, hbound, rfl, hstore, hevents, htrail⟩

end LexicalLisp
