import LexicalLisp.Proofs.Sessions.Stages

/-!
# Results that can be typed in again

An integer, a truth value and a quoted datum have the text of a datum that is recognised as a
literal, and the value of this literal is the value again (`Value.datum?`). So if the text is read,
evaluating it gives the value back, in every session and every store.

It is read if the datum is readable. Of integers this says that they are not negative, since the
reader knows no sign. Of a quoted datum it has to be known where it comes from. Literals are the
only source of quoted data, so that what is quoted remains readable all the way from the texts of a
session, through the bodies of closures, to the values that are obtained from it.
-/

namespace LexicalLisp

open Relation LexicalLisp.Discipline

/-! ## What a session quotes is readable -/

/-- A session to which nothing is handed in but texts, what texts spell, and values that were
obtained from it. -/
def Inputs.texts : Inputs where
  expr := Expr.Spelled
  value _ := False

namespace Datum

theorem inherited_readable : Inherited Readable where
  list h := by
    cases h with
    | list h => exact h
  quote h := by
    cases h with
    | quote h => exact h

end Datum

theorem Expr.Spelled.genuine_readable {e : Expr} (h : e.Spelled) : e.Genuine Datum.Readable := by
  obtain ⟨source, table, d, hd, he⟩ := h
  exact (recognised_of_ofDatum he).genuine Datum.inherited_readable (Datum.readable_of_mem_items hd)

/-- What is quoted in a session of texts is readable. -/
def Discipline.Rooted.readable : Rooted .texts :=
  .ofGenuine Datum.Readable (fun _ ↦ False.elim) (fun _ h ↦ h.genuine_readable)
    fun _ h ↦ h.genuine_readable

/-! ## Literals -/

/-- The datum that has the text of a value. A closure has a text that is not read. -/
def Value.datum? : Value → Option Datum
  | integer value => some (.integer value)
  | bool value => some (.bool value)
  | quoted datum => some (.quote datum)
  | closure _ => none

theorem Value.render_of_datum? {v : Value} {d : Datum} (h : v.datum? = some d) :
    v.render = d.render := by
  cases v <;> cases h <;> rfl

theorem Session.evalItem_of_datum? (session : Session) (depth : Nat) (s : Store) {v : Value}
    {d : Datum} (h : v.datum? = some d) :
    session.evalItem (depth + 1) (.ok d) s =
      some ⟨.ok v, s.newForm.2, [.evaluating (.literal d)]⟩ := by
  cases v <;> cases h <;> rfl

/-- A value with a readable datum is what its text evaluates to, and nothing else happens. -/
theorem Session.evalString_render (session : Session) (depth : Nat) (s : Store) {v : Value}
    {d : Datum} (h : v.datum? = some d) (hd : d.Readable) :
    session.evalString (depth + 1) v.render s =
      some ⟨.ok v, s.newForm.2, [.evaluating (.literal d)]⟩ := by
  rw [evalString, Value.render_of_datum? h, Datum.render, String.toList_ofList,
    Expr.items_chars hd, evalItems, Action.bind_apply, session.evalItem_of_datum? depth s h]
  rfl

/-- **Results can be typed in again.** In any session of texts, under any operators, take a truth
value, a quoted datum or an integer that is not negative, among the values obtained so far. In every
session and every store, evaluating the text of the value gives this value. No frame is changed. -/
theorem obtained_values_read_back {table : OperatorTable} {c : Course}
    (hc : ReflTransGen (Course.Step .texts) (.start table) c) {v : Value} (hv : v ∈ c.obtained)
    (hshape : (∃ b, v = .bool b) ∨ (∃ d, v = .quoted d) ∨
      ∃ i : Fixnum, v = .integer i ∧ 0 ≤ i.val) :
    ∀ (session : Session) (depth : Nat) (s : Store),
      ∃ r, session.evalString (depth + 1) v.render s = some r ∧ r.result = .ok v ∧
        r.store.frames = s.frames := by
  obtain ⟨-, hreadable⟩ := (Rooted.ofGenuine_start table).run (D := Rooted.readable) hc
  have hgenuine : v.Genuine Datum.Readable := hreadable.obtained v hv
  obtain ⟨d, hd, hdatum⟩ : ∃ d, v.datum? = some d ∧ d.Readable := by
    rcases hshape with ⟨b, rfl⟩ | ⟨d, rfl⟩ | ⟨i, rfl, hi⟩
    · exact ⟨_, rfl, .bool b⟩
    · exact ⟨_, rfl, .quote hgenuine⟩
    · exact ⟨_, rfl, .integer hi⟩
  intro session depth s
  exact ⟨_, session.evalString_render depth s hd hdatum, rfl, rfl⟩

/-- A quoted list, bound to a name and found there. Its text gives it back to a session that has
been started over and to one with other operators. -/
theorem obtained_values_read_back_quoted_list :
    let c := Course.start .full
    let v : Value := .quoted (.list [.symbol "a", .quote (.symbol "b"), .bool true])
    ∃ r, c.session.evalString 2 "(define q '(a 'b #t)) q" c.store = some r ∧
      r.result.toOption = some v ∧ v.render = "'(a 'b #t)" ∧
      (let c' := (c.after r.store [v]).reset
        ∃ r', c'.session.evalString 1 "'(a 'b #t)" c'.store = some r' ∧
          r'.result = .ok v ∧ r'.store.frames = c'.store.frames) ∧
      ∃ r', (Course.start (.only [.mul])).session.evalString 1 "'(a 'b #t)" .empty = some r' ∧
        r'.result = .ok v ∧ r'.store.frames = Store.empty.frames := by
  intro c v
  let definition : Datum := .list [.symbol "define", .symbol "q", .quote
    (.list [.symbol "a", .quote (.symbol "b"), .bool true])]
  have hfirst : Datum.read "(define q '(a 'b #t)) q".toList = .ok (definition, " q".toList) := by
    cbv
  have hsecond : Datum.read " q".toList = .ok (.symbol "q", []) := by cbv
  have hitems : Datum.items "(define q '(a 'b #t)) q".toList =
      [.ok definition, .ok (.symbol "q")] := by
    rw [Datum.items_of_read hfirst, Datum.items_of_read hsecond, Datum.items_of_layout rfl]
  obtain ⟨r, hr, hv⟩ : ∃ r, c.session.evalString 2 "(define q '(a 'b #t)) q" c.store = some r ∧
      r.result.toOption = some v := by
    rw [Session.evalString, hitems]
    exact Option.map_eq_some_iff.mp (by decide +kernel)
  have hrender : v.render = "'(a 'b #t)" := by cbv
  have hrun : ReflTransGen (Course.Step .texts) c (c.after r.store [v]) := by
    have hstep : c.Step .texts (c.after r.store r.result.toOption.toList) := .evalString hr
    rw [hv] at hstep
    exact .single hstep
  have hback := obtained_values_read_back hrun (v := v) (List.mem_singleton.mpr rfl)
    (.inr (.inl ⟨_, rfl⟩))
  rw [hrender] at hback
  exact ⟨r, hr, hv, hrender, hback _ 0 _, hback _ 0 _⟩

end LexicalLisp
