import LexicalLisp.Proofs.Reading.Positions
import LexicalLisp.Proofs.Sessions.Course

/-!
# The results of the items of a text

A cursor that is moved through a text delivers its items (`Cursor.delivers_iff`). Listing goes on
after a fault and gives one result for each item, found in the store that the earlier items have
left (`Session.evalEach_eq_some_iff`).

The list of results is given as a relation, `Session.Lists`. Where other ways to evaluate a text
stop earlier, they can be said to list fewer items.
-/

namespace LexicalLisp

open LexicalLisp.Action

/-! ## The items of a text -/

namespace Cursor

/-- Moved on from item to item, the cursor delivers these items, and then there is none. -/
inductive Delivers : Cursor → List (Except ReadError Datum) → Prop
  | done {c : Cursor} (h : c.next.1 = none) : Delivers c []
  | item {c : Cursor} {item : Except ReadError Datum} {rest : List (Except ReadError Datum)}
    (h : c.next.1 = some item) (hrest : Delivers c.next.2 rest) : Delivers c (item :: rest)

theorem next_eq (c : Cursor) : c.next.1 = (Datum.items c.rest).head? ∧
    Datum.items c.next.2.rest = (Datum.items c.rest).tail := by
  have hend : Datum.items [] = [] := Datum.items_of_layout rfl
  by_cases hskip : skipLayout c.rest = []
  · rw [next_of_layout hskip, Datum.items_of_layout hskip]
    exact ⟨rfl, hend⟩
  cases h : Datum.read c.rest with
  | error e =>
    rw [next_of_read_error hskip h, Datum.items_of_read_error hskip h]
    exact ⟨rfl, hend⟩
  | ok found =>
    rw [next_of_read h, Datum.items_of_read h]
    exact ⟨rfl, rfl⟩

/-- A cursor delivers the items of the text ahead, and no others. -/
theorem delivers_iff {c : Cursor} {items : List (Except ReadError Datum)} :
    c.Delivers items ↔ items = Datum.items c.rest := by
  obtain ⟨hhead, htail⟩ := c.next_eq
  induction items generalizing c with
  | nil =>
    constructor
    · rintro ⟨h⟩
      rw [hhead, List.head?_eq_none_iff] at h
      exact h.symm
    · intro h
      refine .done ?_
      rw [hhead, ← h, List.head?_nil]
  | cons item rest ih =>
    obtain ⟨hhead', htail'⟩ := c.next.2.next_eq
    constructor
    · intro h
      cases h with
      | item h hrest =>
        rw [hhead, List.head?_eq_some_iff] at h
        obtain ⟨others, hitems⟩ := h
        rw [(ih hhead' htail').mp hrest, htail, hitems, List.tail_cons]
    · intro h
      refine .item ?_ ((ih hhead' htail').mpr ?_)
      · rw [hhead, ← h, List.head?_cons]
      · rw [htail, ← h, List.tail_cons]

end Cursor

namespace Session

variable {session : Session} {depth : Nat} {s s' : Store} {item : Except ReadError Datum}
  {items : List (Except ReadError Datum)} {results : List (Except Fault Value)} {es : List Event}

/-! ## One item -/

/-- What becomes of an item: it is refused if it cannot be read or is no form, and then nothing
happens; otherwise its form is evaluated in the root. -/
inductive Gives (session : Session) (depth : Nat) (s : Store) :
    Except ReadError Datum → Run Value → Prop
  | unreadable (error : ReadError) :
    Gives session depth s (.error error) ⟨.error (.ofCause (.unreadable error)), s, []⟩
  | malformed {d : Datum} {defect : Malformation}
    (h : Expr.ofDatum session.operators d = .error defect) :
    Gives session depth s (.ok d) ⟨.error (.ofCause (.malformed defect)), s, []⟩
  | evaluated {d : Datum} {e : Expr} {r : Run Value} (h : Expr.ofDatum session.operators d = .ok e)
    (hr : session.evalExpr depth e s = some r) : Gives session depth s (.ok d) r

theorem evalItem_of_buildItem {e : Expr} (h : session.buildItem item = .ok e) :
    session.evalItem depth item = session.evalExpr depth e := by
  rw [evalItem, h]
  exact pure_bind e (session.evalExpr depth)

theorem evalItem_of_buildItem_error {cause : Cause} (h : session.buildItem item = .error cause) :
    session.evalItem depth item = Action.fail (.ofCause cause) := by
  rw [evalItem, h]
  rfl

theorem evalItem_eq_some_iff {r : Run Value} :
    session.evalItem depth item s = some r ↔ session.Gives depth s item r := by
  cases item with
  | error error =>
    rw [evalItem_of_buildItem_error rfl]
    constructor
    · intro h
      cases h
      exact .unreadable error
    · rintro ⟨⟩
      rfl
  | ok d =>
    cases hd : Expr.ofDatum session.operators d with
    | error defect =>
      rw [evalItem_of_buildItem_error (buildItem_of_ofDatum_error hd)]
      constructor
      · intro h
        cases h
        exact .malformed hd
      · intro h
        cases h with
        | malformed h =>
          cases hd.symm.trans h
          rfl
        | evaluated h => cases hd.symm.trans h
    | ok e =>
      rw [evalItem_of_buildItem (buildItem_of_ofDatum hd)]
      constructor
      · exact .evaluated hd
      · intro h
        cases h with
        | malformed h => cases hd.symm.trans h
        | evaluated h hr =>
          cases hd.symm.trans h
          exact hr

/-- A form is evaluated in the root of the session, and its evaluation is announced by an event of
its own. -/
theorem gives_iff_eval {d : Datum} {e : Expr} (h : Expr.ofDatum session.operators d = .ok e)
    {r : Run Value} : session.Gives depth s (.ok d) r ↔
      ∃ r', eval depth [s.forms] session.root e s.newForm.2 = some r' ∧
        r = { r' with events := .evaluating e :: r'.events } := by
  rw [← evalItem_eq_some_iff, evalItem_of_buildItem (buildItem_of_ofDatum h), evalExpr_apply,
    Option.map_eq_some_iff]
  simp only [eq_comm]

/-! ## The results of items -/

/-- The results of items in turn, one for each, found in the store that the earlier ones have
left. -/
inductive Lists (session : Session) (depth : Nat) : List (Except ReadError Datum) → Store →
    List (Except Fault Value) → Store → List Event → Prop
  | nil {s : Store} : Lists session depth [] s [] s []
  | cons {item : Except ReadError Datum} {rest : List (Except ReadError Datum)} {s s' : Store}
    {r : Run Value} {results : List (Except Fault Value)} {es : List Event}
    (hitem : session.Gives depth s item r)
    (hrest : Lists session depth rest r.store results s' es) :
    Lists session depth (item :: rest) s (r.result :: results) s' (r.events ++ es)

/-- Listing ends if all items do, and never in a fault. -/
theorem evalEach_eq_some_iff {r : Run (List (Except Fault Value))} :
    session.evalEach depth items s = some r ↔
      ∃ results, r.result = .ok results ∧
        session.Lists depth items s results r.store r.events := by
  induction items generalizing s r with
  | nil =>
    constructor
    · intro h
      cases h
      exact ⟨[], rfl, .nil⟩
    · obtain ⟨result, s', es⟩ := r
      rintro ⟨results, hresult, hlists⟩
      cases hlists
      cases hresult
      rfl
  | cons item rest ih =>
    rw [evalEach]
    constructor
    · intro h
      obtain ⟨_, habsurd, -⟩ | ⟨_, s₁, es₁, r₁, hfirst, hrest, rfl⟩ := bind_eq_some_iff.mp h
      · obtain ⟨_, -, hr⟩ := attempt_eq_some_iff.mp habsurd
        cases hr
      obtain ⟨r₀, hitem, hr₀⟩ := attempt_eq_some_iff.mp hfirst
      cases hr₀
      obtain ⟨_, hothers, -⟩ | ⟨others, s₂, es₂, r₂, hothers, hpure, rfl⟩ :=
        bind_eq_some_iff.mp hrest
      · obtain ⟨_, hresult, -⟩ := ih.mp hothers
        cases hresult
      cases hpure
      obtain ⟨_, hresult, hlists⟩ := ih.mp hothers
      cases hresult
      refine ⟨r₀.result :: others, rfl, ?_⟩
      dsimp only
      rw [List.append_nil]
      exact .cons (evalItem_eq_some_iff.mp hitem) hlists
    · obtain ⟨result, s', es⟩ := r
      rintro ⟨results, hresult, hlists⟩
      cases hlists with
      | @cons _ _ _ _ r₀ others es₂ hitem hrest =>
        cases hresult
        refine bind_eq_some_iff.mpr (.inr ⟨r₀.result, r₀.store, r₀.events,
          ⟨.ok (r₀.result :: others), s', es₂⟩, ?_, ?_, rfl⟩)
        · exact attempt_eq_some_iff.mpr ⟨r₀, evalItem_eq_some_iff.mpr hitem, rfl⟩
        · refine bind_eq_some_iff.mpr (.inr ⟨others, s', es₂,
            ⟨.ok (r₀.result :: others), s', []⟩, ih.mpr ⟨others, rfl, hrest⟩, rfl, ?_⟩)
          rw [List.append_nil]

theorem Lists.take (h : session.Lists depth items s results s' es) (count : Nat) :
    ∃ s'' es', session.Lists depth (items.take count) s (results.take count) s'' es' ∧
      es' <+: es := by
  induction h generalizing count with
  | nil =>
    rw [List.take_nil, List.take_nil]
    exact ⟨_, [], .nil, List.prefix_rfl⟩
  | cons hitem hrest ih =>
    cases count with
    | zero => exact ⟨_, [], .nil, List.nil_prefix⟩
    | succ count =>
      obtain ⟨s'', es', hlists, hprefix⟩ := ih count
      exact ⟨s'', _, .cons hitem hlists, (List.prefix_append_right_inj _).mpr hprefix⟩

end Session

end LexicalLisp
