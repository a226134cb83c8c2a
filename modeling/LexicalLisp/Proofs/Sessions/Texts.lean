import LexicalLisp.Proofs.Evaluation.Relevance
import LexicalLisp.Proofs.Sessions.Listing

/-!
# The ways to evaluate a text

A text can be evaluated up to its first fault, the results of its items can be listed, and its forms
can be parsed first and evaluated afterwards. These ways go through the text differently: evaluating
and listing take each item through all stages before the next one is read, and listing goes on after
a fault; parsing reads and recognises everything before anything is evaluated. They agree
nevertheless (`ways_to_evaluate_agree`).

What the others are compared with is the list of results (`Session.Lists`). An evaluation is the
evaluation of the items one by one (`Session.evalItems_eq_mapM`), and this is a list of results that
is broken off at the first fault. Where the items are forms, it is an evaluation of these forms.
-/

namespace LexicalLisp

open LexicalLisp.Action

namespace Session

variable {results : List (Except Fault Value)}

/-! ## Evaluating up to the first fault -/

/-- The last value is the result, if there is one. -/
def lastResult : Option Value → Except Fault Value
  | some v => .ok v
  | none => .error (.ofCause (.unreadable .unexpectedEnd))

/-- Items that are evaluated up to the first fault are evaluated one by one, and the last value is
kept. -/
theorem evalItems_eq_mapM (session : Session) (depth : Nat) (last : Option Value)
    (items : List (Except ReadError Datum)) :
    session.evalItems depth last items =
      items.mapM (session.evalItem depth) >>= fun values ↦
        Action.ofExcept (lastResult (values.getLast?.or last)) := by
  induction items generalizing last with
  | nil =>
    rw [List.mapM_nil, pure_bind]
    cases last <;> rfl
  | cons item rest ih =>
    rw [evalItems, List.mapM_cons, bind_assoc]
    congr 1
    funext v
    rw [ih, bind_assoc]
    congr 1
    funext values
    rw [pure_bind, List.getLast?_cons, Option.some_or, Option.or_some]

theorem evalString_eq_mapM (session : Session) (depth : Nat) (source : String) :
    session.evalString depth source =
      (Datum.items source.toList).mapM (session.evalItem depth) >>= fun values ↦
        Action.ofExcept (lastResult values.getLast?) := by
  rw [evalString, evalItems_eq_mapM]
  simp only [Option.or_none]

/-- Of so many items in all, the first ones have these results, and no more are needed: the last of
them is the first fault, or all items have values. -/
inductive UpToFault : Nat → List (Except Fault Value) → Except Fault (List Value) → Prop
  | nil : UpToFault 0 [] (.ok [])
  | fault (total : Nat) (fault : Fault) : UpToFault (total + 1) [.error fault] (.error fault)
  | value (v : Value) {total : Nat} {results : List (Except Fault Value)}
    {outcome : Except Fault (List Value)} (h : UpToFault total results outcome) :
    UpToFault (total + 1) (.ok v :: results) (outcome.map (v :: ·))

/-- The results that are needed to evaluate a text with so many items, and the result of the
text. -/
inductive Verdict (total : Nat) : List (Except Fault Value) → Except Fault Value → Prop
  /-- The first fault is the result, and nothing is evaluated behind it. -/
  | fault (values : List Value) (fault : Fault) (h : values.length < total) :
    Verdict total (values.map .ok ++ [.error fault]) (.error fault)
  /-- Without a fault, the last value is the result. -/
  | value (values : List Value) (v : Value) (h : values.length + 1 = total) :
    Verdict total (values.map .ok ++ [.ok v]) (.ok v)
  /-- Without items, the text has ended too early. -/
  | nothing (h : total = 0) : Verdict total [] (.error (.ofCause (.unreadable .unexpectedEnd)))

theorem UpToFault.results_eq {total : Nat} {values : List Value}
    (h : UpToFault total results (.ok values)) :
    results = values.map .ok ∧ values.length = total := by
  generalize houtcome : Except.ok values = outcome at h
  induction h generalizing values with
  | nil =>
    cases houtcome
    exact ⟨rfl, rfl⟩
  | fault => cases houtcome
  | @value v total results outcome h ih =>
    cases outcome with
    | error fault => cases houtcome
    | ok others =>
      cases houtcome
      obtain ⟨rfl, rfl⟩ := ih rfl
      exact ⟨rfl, rfl⟩

theorem UpToFault.exists_results_eq {total : Nat} {fault : Fault}
    (h : UpToFault total results (.error fault)) :
    ∃ values : List Value, results = values.map .ok ++ [.error fault] ∧ values.length < total := by
  generalize houtcome : Except.error fault = outcome at h
  induction h with
  | nil => cases houtcome
  | fault total fault =>
    cases houtcome
    exact ⟨[], rfl, Nat.succ_pos total⟩
  | @value v total results outcome h ih =>
    cases outcome with
    | ok others => cases houtcome
    | error fault =>
      cases houtcome
      obtain ⟨values, rfl, hlt⟩ := ih rfl
      exact ⟨v :: values, rfl, Nat.succ_lt_succ hlt⟩

theorem UpToFault.verdict {total : Nat} {outcome : Except Fault (List Value)}
    (h : UpToFault total results outcome) :
    Verdict total results (outcome >>= fun values ↦ lastResult values.getLast?) := by
  cases outcome with
  | error fault =>
    obtain ⟨values, rfl, hlt⟩ := h.exists_results_eq
    exact .fault values fault hlt
  | ok values =>
    obtain ⟨rfl, hlength⟩ := h.results_eq
    change Verdict total _ (lastResult values.getLast?)
    obtain rfl | ⟨values, v, rfl⟩ := values.eq_nil_or_concat
    · exact .nothing hlength.symm
    · rw [List.length_concat] at hlength
      rw [List.concat_eq_append, List.getLast?_concat, lastResult, List.map_append]
      exact .value values v hlength

theorem Verdict.exists_upToFault {total : Nat} {result : Except Fault Value}
    (h : Verdict total results result) : ∃ outcome, UpToFault total results outcome ∧
      result = outcome >>= fun values ↦ lastResult values.getLast? := by
  have hall : ∀ values : List Value, UpToFault values.length (values.map .ok) (.ok values) := by
    intro values
    induction values with
    | nil => exact .nil
    | cons v values ih => exact .value v ih
  cases h with
  | nothing h =>
    subst h
    exact ⟨_, .nil, rfl⟩
  | value values v h =>
    subst h
    have hvalues := hall (values ++ [v])
    rw [List.map_append, List.length_append] at hvalues
    refine ⟨_, hvalues, ?_⟩
    change _ = lastResult (values ++ [v]).getLast?
    rw [List.getLast?_concat, lastResult]
  | fault values fault h =>
    refine ⟨.error fault, ?_, rfl⟩
    induction values generalizing total with
    | nil =>
      obtain ⟨rest, rfl⟩ := Nat.exists_eq_add_one.mpr h
      exact .fault rest fault
    | cons v values ih =>
      obtain ⟨rest, rfl⟩ := Nat.exists_eq_add_one.mpr (Nat.lt_of_le_of_lt (Nat.zero_le _) h)
      exact .value v (ih (Nat.lt_of_succ_lt_succ h))

end Session

theorem Action.bind_ofExcept_eq_some_iff {α β : Type} {m : Action α} {g : α → Except Fault β}
    {s : Store} {r : Run β} :
    (m >>= fun a ↦ Action.ofExcept (g a)) s = some r ↔
      ∃ r', m s = some r' ∧ r = ⟨r'.result >>= g, r'.store, r'.events⟩ := by
  have hofExcept : ∀ (result : Except Fault β) (s : Store),
      Action.ofExcept result s = some ⟨result, s, []⟩ := by
    intro result s
    cases result <;> rfl
  change Action.bind m _ s = some r ↔ _
  rcases h : m s with _ | ⟨fault | a, s', es⟩
  · simp [Action.bind, h]
  · simp [Action.bind, h, eq_comm, Bind.bind, Except.bind]
  · simp [Action.bind, h, hofExcept, eq_comm, Bind.bind, Except.bind]

namespace Session

variable {session : Session} {depth : Nat} {s : Store} {items : List (Except ReadError Datum)}

/-- The evaluation of items one by one is a list of results that ends with the first fault. -/
theorem mapM_evalItem_eq_some_iff {r : Run (List Value)} :
    items.mapM (session.evalItem depth) s = some r ↔
      ∃ count results, session.Lists depth (items.take count) s results r.store r.events ∧
        UpToFault items.length results r.result := by
  induction items generalizing s r with
  | nil =>
    rw [List.mapM_nil]
    constructor
    · intro h
      cases h
      exact ⟨0, [], .nil, .nil⟩
    · obtain ⟨result, s', es⟩ := r
      rintro ⟨count, results, hlists, hfault⟩
      rw [List.take_nil] at hlists
      cases hlists
      cases hfault
      rfl
  | cons item rest ih =>
    have hcons : (item :: rest).mapM (session.evalItem depth) = (session.evalItem depth item >>=
        fun v ↦ rest.mapM (session.evalItem depth) >>= fun values ↦
          Action.ofExcept (.ok (v :: values))) := List.mapM_cons
    rw [hcons]
    constructor
    · intro h
      obtain ⟨fault, hitem, hresult⟩ | ⟨v, s₁, es₁, r₁, hitem, hrest, rfl⟩ := bind_eq_some_iff.mp h
      · have hlists := Lists.cons (evalItem_eq_some_iff.mp hitem) .nil
        rw [List.append_nil] at hlists
        exact ⟨1, _, hlists, hresult ▸ .fault rest.length fault⟩
      · obtain ⟨r₂, hvalues, rfl⟩ := bind_ofExcept_eq_some_iff.mp hrest
        obtain ⟨count, results, hlists, hfault⟩ := ih.mp hvalues
        exact ⟨count + 1, _, .cons (evalItem_eq_some_iff.mp hitem) hlists, .value v hfault⟩
    · obtain ⟨result, s', es⟩ := r
      rintro ⟨count, results, hlists, hfault⟩
      cases count with
      | zero =>
        cases hlists
        cases hfault
      | succ count =>
        rw [List.take_succ_cons] at hlists
        cases hlists with
        | @cons _ _ _ _ r₀ others es₂ hitem hrest =>
          obtain ⟨result₀, s₁, es₁⟩ := r₀
          have hfirst := evalItem_eq_some_iff.mpr hitem
          cases hfault with
          | fault _ fault =>
            generalize rest.take count = first at hrest
            cases hrest
            have hrun : session.evalItem depth item s = some ⟨.error fault, s', es₁ ++ []⟩ := by
              rw [hfirst, List.append_nil]
            exact bind_eq_some_iff.mpr (.inl ⟨fault, hrun, rfl⟩)
          | @value v _ _ outcome hfault =>
            have hvalues : rest.mapM (session.evalItem depth) s₁ = some ⟨outcome, s', es₂⟩ :=
              ih.mpr ⟨count, others, hrest, hfault⟩
            exact bind_eq_some_iff.mpr (.inr ⟨v, s₁, es₁, _, hfirst,
              bind_ofExcept_eq_some_iff.mpr ⟨_, hvalues, rfl⟩, by cases outcome <;> rfl⟩)

/-! ## Parsing first -/

theorem mapM_evalItem_of_parsed {asts : List Expr} (h : items.mapM session.buildItem = .ok asts) :
    items.mapM (session.evalItem depth) = asts.mapM (session.evalExpr depth) := by
  induction items generalizing asts with
  | nil =>
    cases h
    rfl
  | cons item rest ih =>
    rw [List.mapM_cons] at h
    cases hitem : session.buildItem item with
    | error cause =>
      rw [hitem] at h
      cases h
    | ok e =>
      cases hrest : rest.mapM session.buildItem with
      | error cause =>
        rw [hitem, hrest] at h
        cases h
      | ok others =>
        rw [hitem, hrest] at h
        cases h
        rw [List.mapM_cons, List.mapM_cons, evalItem_of_buildItem hitem, ih hrest]

theorem exists_first_refused {cause : Cause} (h : items.mapM session.buildItem = .error cause) :
    ∃ good bad rest asts, items = good ++ bad :: rest ∧
      good.mapM session.buildItem = .ok asts ∧ session.buildItem bad = .error cause := by
  induction items with
  | nil => cases h
  | cons item rest ih =>
    rw [List.mapM_cons] at h
    cases hitem : session.buildItem item with
    | error cause' =>
      rw [hitem] at h
      cases h
      exact ⟨[], item, rest, [], rfl, rfl, hitem⟩
    | ok e =>
      cases hrest : rest.mapM session.buildItem with
      | error cause' =>
        rw [hitem, hrest] at h
        cases h
        obtain ⟨good, bad, others, asts, rfl, hgood, hbad⟩ := ih hrest
        refine ⟨item :: good, bad, others, e :: asts, rfl, ?_, hbad⟩
        rw [List.mapM_cons, hitem, hgood]
        rfl
      | ok others =>
        rw [hitem, hrest] at h
        cases h

theorem mapM_evalItem_of_refused {good rest : List (Except ReadError Datum)}
    {bad : Except ReadError Datum} {asts : List Expr} {cause : Cause}
    (hgood : good.mapM session.buildItem = .ok asts) (hbad : session.buildItem bad = .error cause) :
    (good ++ bad :: rest).mapM (session.evalItem depth) =
      asts.mapM (session.evalExpr depth) >>= fun _ ↦ Action.fail (.ofCause cause) := by
  rw [List.mapM_append, mapM_evalItem_of_parsed hgood, List.mapM_cons,
    evalItem_of_buildItem_error hbad]
  rfl

end Session

/-! ## Entering first -/

theorem Action.bind_of_silent {α β : Type} {m : Action α} {k : α → Action β} {a : α}
    {s s' : Store} (h : m s = some ⟨.ok a, s', []⟩) : (m >>= k) s = k a s' := by
  change Action.bind m k s = k a s'
  simp only [Action.bind, h]
  cases k a s' <;> rfl

theorem Action.bind_renumber {α β : Type} {m m' : Action α} {k k' : α → Action β} {t t' : Store}
    {n : Nat} (hm : m t = (m' t').map (·.renumber n))
    (hk : ∀ a s' es, m' t' = some ⟨.ok a, s', es⟩ →
      k a (s'.renumber n) = (k' a s').map (·.renumber n)) :
    (m >>= k) t = ((m' >>= k') t').map (·.renumber n) := by
  change Action.bind m k t = (Action.bind m' k' t').map _
  rcases h : m' t' with _ | ⟨fault | a, s', es⟩
  · simp [Action.bind, hm, h]
  · simp [Action.bind, hm, h, Run.renumber]
  · have hrest := hk a s' es h
    rcases h' : k' a s' with _ | r <;>
      simp [Action.bind, hm, h, Run.renumber, hrest, h']

theorem Action.ofExcept_renumber {α : Type} (result : Except Fault α) (s : Store) (n : Nat) :
    Action.ofExcept result (s.renumber n) = (Action.ofExcept result s).map (·.renumber n) := by
  cases result <;> rfl

namespace Session

variable {session : Session} {depth : Nat}

theorem evalForm_renumber (form : Form) (s : Store) (n : Nat) :
    session.evalForm depth form (s.renumber n) =
      (session.evalForm depth form s).map (·.renumber n) :=
  bind_renumber rfl fun _ s' _ _ ↦ eval_renumber depth _ _ _ s' n

/-- The forms of expressions that enter one after another, numbered from here on. -/
def numbered (n : Nat) : List Expr → List Form
  | [] => []
  | e :: rest => ⟨n, e⟩ :: numbered (n + 1) rest

theorem mapM_enter (asts : List Expr) (s : Store) :
    asts.mapM enter s =
      some ⟨.ok (numbered s.forms asts), s.renumber (s.forms + asts.length), []⟩ := by
  induction asts generalizing s with
  | nil => rfl
  | cons e rest ih =>
    have henter : enter e s = some ⟨.ok ⟨s.forms, e⟩, s.renumber (s.forms + 1), []⟩ := rfl
    have hlength : s.forms + 1 + rest.length = s.forms + (e :: rest).length := by
      rw [List.length_cons]
      omega
    have hrest : rest.mapM enter (s.renumber (s.forms + 1)) = some
        ⟨.ok (numbered (s.forms + 1) rest), s.renumber (s.forms + 1 + rest.length), []⟩ := ih _
    rw [hlength] at hrest
    rw [List.mapM_cons, bind_of_silent henter, bind_of_silent hrest]
    rfl

/-- An expression that enters right before it is evaluated might have entered earlier, in the same
order. -/
theorem mapM_evalForm_numbered (asts : List Expr) (s : Store) (n : Nat) :
    (numbered s.forms asts).mapM (session.evalForm depth) (s.renumber n) =
      (asts.mapM (session.evalExpr depth) s).map (·.renumber n) := by
  induction asts generalizing s with
  | nil => rfl
  | cons e rest ih =>
    have hexpr : session.evalExpr depth e s =
        (session.evalForm depth ⟨s.forms, e⟩ s).map (·.renumber (s.forms + 1)) := by
      rw [← evalForm_renumber]
      exact bind_of_silent rfl
    rw [numbered, List.mapM_cons, List.mapM_cons]
    refine bind_renumber ?_ fun v s' es hv ↦ bind_renumber ?_ fun values s'' _ _ ↦ rfl
    · rw [hexpr, Option.map_map, evalForm_renumber]
      rfl
    · have hforms : s'.forms = s.forms + 1 := by
        rw [hexpr] at hv
        obtain ⟨r, -, hr⟩ := Option.map_eq_some_iff.mp hv
        exact congrArg (fun r ↦ r.store.forms) hr.symm
      rw [← hforms]
      exact ih s'

/-- Forms that have all entered before the first one is evaluated are evaluated as expressions that
enter one by one, except that all of them have been counted in the end. -/
theorem mapM_enter_bind (asts : List Expr) (s : Store) (g : List Value → Except Fault Value) :
    (asts.mapM enter >>= fun forms ↦ forms.mapM (session.evalForm depth) >>= fun values ↦
        Action.ofExcept (g values)) s =
      ((asts.mapM (session.evalExpr depth) >>= fun values ↦ Action.ofExcept (g values)) s).map
        (·.renumber (s.forms + asts.length)) := by
  rw [bind_of_silent (mapM_enter asts s)]
  exact bind_renumber (mapM_evalForm_numbered asts s _) fun values s' _ _ ↦
    ofExcept_renumber (g values) s' _

end Session

/-! ## Agreement -/

open Session

/-- **The ways to evaluate a text agree.** Let a text be given in any state of a session.

* Its items are what a cursor delivers that is moved through the text, and listing gives one result
  for each of them: it is refused, or its form is evaluated in the store that the earlier items have
  left.
* Evaluating the text gives the first fault among these results, and nothing is evaluated behind it;
  or else it gives the last value, or a fault of its own if there are no items. Asking for fewer
  results gives the first ones.
* If the text can be parsed, then evaluating it is evaluating its forms one after another up to the
  first fault. It makes no difference whether each form enters the session when its turn comes or
  all of them have entered before.
* If parsing fails, then behind some forms. Evaluating the text evaluates these, and unless one of
  them fails, it ends in the fault of parsing. -/
theorem ways_to_evaluate_agree (session : Session) (depth : Nat) (source : String) (s : Store) :
    let items := Datum.items source.toList
    (Cursor.start source.toList).Delivers items ∧
    (∀ r, session.forms depth source s = some r ↔ ∃ results, r.result = .ok results ∧
      session.Lists depth items s results r.store r.events) ∧
    (∀ r, session.evalString depth source s = some r ↔ ∃ count results,
      session.firstForms depth count source s = some ⟨.ok results, r.store, r.events⟩ ∧
        Verdict items.length results r.result) ∧
    (∀ results s' es, session.forms depth source s = some ⟨.ok results, s', es⟩ → ∀ count,
      ∃ s'' es', session.firstForms depth count source s =
        some ⟨.ok (results.take count), s'', es'⟩ ∧ es' <+: es) ∧
    (∀ asts, session.parse source = .ok asts →
      let values := asts.mapM (session.evalExpr depth)
      let values' := asts.mapM enter >>= fun forms ↦ forms.mapM (session.evalForm depth)
      session.evalString depth source s =
        (values >>= fun vs ↦ Action.ofExcept (lastResult vs.getLast?)) s ∧
      (values' >>= fun vs ↦ Action.ofExcept (lastResult vs.getLast?)) s =
        (session.evalString depth source s).map (·.renumber (s.forms + asts.length))) ∧
    ∀ cause, session.parse source = .error cause → ∃ good bad rest asts,
      items = good ++ bad :: rest ∧ good.mapM session.buildItem = .ok asts ∧
      session.buildItem bad = .error cause ∧
      session.evalString depth source s =
        (asts.mapM (session.evalExpr depth) >>= fun _ ↦ Action.fail (.ofCause cause)) s := by
  intro items
  refine ⟨Cursor.delivers_iff.mpr rfl, fun r ↦ evalEach_eq_some_iff, fun r ↦ ?_, ?_, ?_, ?_⟩
  · rw [evalString_eq_mapM, bind_ofExcept_eq_some_iff]
    constructor
    · rintro ⟨r', hr', rfl⟩
      obtain ⟨count, results, hlists, hfault⟩ := mapM_evalItem_eq_some_iff.mp hr'
      exact ⟨count, results, evalEach_eq_some_iff.mpr ⟨results, rfl, hlists⟩, hfault.verdict⟩
    · obtain ⟨result, s', es⟩ := r
      rintro ⟨count, results, hforms, hverdict⟩
      obtain ⟨_, hresults, hlists⟩ := evalEach_eq_some_iff.mp hforms
      cases hresults
      obtain ⟨outcome, hfault, rfl⟩ := hverdict.exists_upToFault
      exact ⟨⟨outcome, s', es⟩, mapM_evalItem_eq_some_iff.mpr ⟨count, _, hlists, hfault⟩, rfl⟩
  · intro results s' es h count
    obtain ⟨_, hresults, hlists⟩ := evalEach_eq_some_iff.mp h
    cases hresults
    obtain ⟨s'', es', htake, hprefix⟩ := hlists.take count
    exact ⟨s'', es', evalEach_eq_some_iff.mpr ⟨_, rfl, htake⟩, hprefix⟩
  · intro asts hparse values values'
    have hstring : session.evalString depth source =
        values >>= fun vs ↦ Action.ofExcept (lastResult vs.getLast?) := by
      rw [evalString_eq_mapM, mapM_evalItem_of_parsed hparse]
    refine ⟨congrFun hstring s, ?_⟩
    rw [hstring, bind_assoc]
    exact mapM_enter_bind asts s _
  · intro cause hparse
    obtain ⟨good, bad, rest, asts, hitems, hgood, hbad⟩ := exists_first_refused hparse
    refine ⟨good, bad, rest, asts, hitems, hgood, hbad, ?_⟩
    rw [evalString_eq_mapM, hitems, mapM_evalItem_of_refused hgood hbad, bind_assoc]
    rfl

/-- The first text is parsed and gives two results. In the second one, an item behind a definition
is no form, and the definition is evaluated before it is refused. -/
theorem ways_to_evaluate_agree_malformed_second_item :
    let c := Course.start .full
    let good := "(define x #t) x"
    let bad := "(define x #t) (if)"
    (∃ asts results s' es s'' es', c.session.parse good = .ok asts ∧ asts.length = 2 ∧
      c.session.evalString 2 good c.store = (asts.mapM (c.session.evalExpr 2) >>= fun vs ↦
        Action.ofExcept (lastResult vs.getLast?)) c.store ∧
      c.session.forms 2 good c.store = some ⟨.ok results, s', es⟩ ∧
      c.session.firstForms 2 1 good c.store = some ⟨.ok (results.take 1), s'', es'⟩) ∧
    ∃ (asts : List Expr) (cause : Cause), c.session.parse bad = .error cause ∧
      c.session.evalString 2 bad c.store = (asts.mapM (c.session.evalExpr 2) >>= fun _ ↦
        Action.fail (.ofCause cause)) c.store := by
  intro c good bad
  let definition : Datum := .list [.symbol "define", .symbol "x", .bool true]
  have hdefinition : Datum.read good.toList = .ok (definition, " x".toList) := by decide +kernel
  have hsymbol : Datum.read " x".toList = .ok (.symbol "x", []) := by decide +kernel
  have hgood : Datum.items good.toList = [.ok definition, .ok (.symbol "x")] := by
    rw [Datum.items_of_read hdefinition, Datum.items_of_read hsymbol, Datum.items_of_layout rfl]
  have hdefinition' : Datum.read bad.toList = .ok (definition, " (if)".toList) := by decide +kernel
  have hconditional : Datum.read " (if)".toList = .ok (.list [.symbol "if"], []) := by
    decide +kernel
  have hbad : Datum.items bad.toList = [.ok definition, .ok (.list [.symbol "if"])] := by
    rw [Datum.items_of_read hdefinition', Datum.items_of_read hconditional,
      Datum.items_of_layout rfl]
  constructor
  · obtain ⟨-, hlists, -, htake, hparsed, -⟩ := ways_to_evaluate_agree c.session 2 good c.store
    have hparse : c.session.parse good =
        .ok [.definition "x" (.literal (.bool true)), .symbol "x"] := by
      rw [Session.parse, hgood]
      rfl
    obtain ⟨⟨result, s', es⟩, hforms⟩ : ∃ r, c.session.forms 2 good c.store = some r := by
      rw [Session.forms, hgood]
      exact Option.isSome_iff_exists.mp (by decide +kernel)
    obtain ⟨results, rfl, -⟩ := (hlists _).mp hforms
    obtain ⟨s'', es', hfirst, -⟩ := htake results s' es hforms 1
    exact ⟨_, results, s', es, s'', es', hparse, rfl, (hparsed _ hparse).1, hforms, hfirst⟩
  · obtain ⟨-, -, -, -, -, hrefused⟩ := ways_to_evaluate_agree c.session 2 bad c.store
    have hparse : c.session.parse bad = .error (.malformed (.conditionalCount 0)) := by
      rw [Session.parse, hbad]
      rfl
    obtain ⟨_, _, _, asts, -, -, -, hstring⟩ := hrefused _ hparse
    exact ⟨asts, _, hparse, hstring⟩

end LexicalLisp
