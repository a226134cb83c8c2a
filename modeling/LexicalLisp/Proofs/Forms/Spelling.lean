import LexicalLisp.Proofs.Reading.RoundTrip
import LexicalLisp.Session

/-!
# Recognising loses nothing

An expression that has been recognised in a datum spells that datum and no other one, under every
table of operators (`Expr.toDatum_of_ofDatum`). So its text is the text of the datum, two data are
never recognised as one expression, and a text that was read, recognised and printed is read and
recognised as the same expression again (`Expr.ofDatum_lossless`).

What stands behind an expression is written down once, as a relation with a case for each kind of
expression (`Expr.Recognised`); a success of `Expr.ofDatum` is traced back to it, and everything
else is read off the relation.
-/

namespace LexicalLisp

namespace Expr

variable {table : OperatorTable}

/-! ## What is recognised -/

mutual

/-- The datum is recognised as the expression. -/
inductive Recognised (table : OperatorTable) : Datum → Expr → Prop
  | integer (value : Fixnum) : Recognised table (.integer value) (.literal (.integer value))
  | bool (value : Bool) : Recognised table (.bool value) (.literal (.bool value))
  | quote (inner : Datum) : Recognised table (.quote inner) (.literal (.quote inner))
  | symbol (name : String) : Recognised table (.symbol name) (.symbol name)
  | definition {name : String} {d : Datum} {e : Expr} (h : Recognised table d e) :
    Recognised table (.list [.symbol Keyword.define.word, .symbol name, d]) (.definition name e)
  | conditional {d₁ d₂ d₃ : Datum} {e₁ e₂ e₃ : Expr} (h₁ : Recognised table d₁ e₁)
    (h₂ : Recognised table d₂ e₂) (h₃ : Recognised table d₃ e₃) :
    Recognised table (.list [.symbol Keyword.conditional.word, d₁, d₂, d₃])
      (.conditional e₁ e₂ e₃)
  | binary {op : Operator} {d₁ d₂ : Datum} {e₁ e₂ : Expr} (h₁ : Recognised table d₁ e₁)
    (h₂ : Recognised table d₂ e₂) :
    Recognised table (.list [.symbol op.symbol, d₁, d₂]) (.binary op e₁ e₂)
  | lambda {params : List String} {d : Datum} {e : Expr} (h : Recognised table d e) :
    Recognised table (.list [.symbol Keyword.lambda.word, .list (params.map .symbol), d])
      (.lambda params e)
  | call {head : Datum} {callee : Expr} {ds : List Datum} {es : List Expr}
    (h : Recognised table head callee) (hargs : AllRecognised table ds es) :
    Recognised table (.list (head :: ds)) (.call callee es)

/-- The data are recognised as the expressions, one by one. -/
inductive AllRecognised (table : OperatorTable) : List Datum → List Expr → Prop
  | nil : AllRecognised table [] []
  | cons {d : Datum} {e : Expr} {ds : List Datum} {es : List Expr} (h : Recognised table d e)
    (hs : AllRecognised table ds es) : AllRecognised table (d :: ds) (e :: es)

end

private theorem bind_eq_ok_iff {α β ε : Type} {x : Except ε α} {f : α → Except ε β} {b : β} :
    (x >>= f) = .ok b ↔ ∃ a, x = .ok a ∧ f a = .ok b := by
  cases x with
  | error e => exact ⟨nofun, nofun⟩
  | ok a => exact ⟨fun h ↦ ⟨a, rfl, h⟩, fun ⟨_, ha, h⟩ ↦ Except.ok.inj ha ▸ h⟩

theorem eq_map_symbol_of_parameterNames {ds : List Datum} {names : List String}
    (h : Datum.parameterNames ds = .ok names) : ds = names.map .symbol := by
  induction ds generalizing names with
  | nil =>
    cases h
    rfl
  | cons d ds ih =>
    cases d with
    | symbol name =>
      obtain ⟨names', hnames, rfl⟩ := map_eq_ok_iff.mp h
      rw [ih hnames, List.map_cons]
    | _ => cases h

/-- A list whose head is neither an operator nor a keyword is a call. -/
theorem ofItems_cons {head : Datum} {args : List Datum}
    (h : ∀ name, head = .symbol name → table.classify name = .ordinary) :
    ofItems table (head :: args) = do
      let callee ← ofDatum table head
      let args ← ofAll table args
      return .call callee args := by
  cases head with
  | symbol name =>
    rw [ofItems.eq_def]
    dsimp only
    rw [h name rfl]
    rfl
  | _ => rfl

/-! ### One list

Each kind of list is traced back on its own, from what is known of the data inside. -/

section List

variable {name : String} {parts : List Datum} {e : Expr}
  (ih : ∀ d ∈ parts, ∀ e, ofDatum table d = .ok e → Recognised table d e)
include ih

theorem allRecognised_of_ofAll {es : List Expr} (h : ofAll table parts = .ok es) :
    AllRecognised table parts es := by
  induction parts generalizing es with
  | nil =>
    cases h
    exact .nil
  | cons d ds ihs =>
    rw [List.forall_mem_cons] at ih
    obtain ⟨e, he, h⟩ := bind_eq_ok_iff.mp h
    obtain ⟨es, hes, h⟩ := bind_eq_ok_iff.mp h
    cases h
    exact .cons (ih.1 e he) (ihs ih.2 hes)

theorem recognised_of_operator {op : Operator} (hop : table.classify name = .operator op)
    (h : ofItems table (.symbol name :: parts) = .ok e) :
    Recognised table (.list (.symbol name :: parts)) e := by
  rw [ofItems.eq_def] at h
  simp only [hop] at h
  rw [← (OperatorTable.classify_eq_operator_iff.mp hop).2]
  split at h
  next left right =>
    obtain ⟨l, hl, h⟩ := bind_eq_ok_iff.mp h
    obtain ⟨r, hr, h⟩ := bind_eq_ok_iff.mp h
    cases h
    exact .binary (ih left (by simp) l hl) (ih right (by simp) r hr)
  next => cases h

theorem recognised_of_define (hk : table.classify name = .keyword .define)
    (h : ofItems table (.symbol name :: parts) = .ok e) :
    Recognised table (.list (.symbol name :: parts)) e := by
  rw [ofItems.eq_def] at h
  simp only [hk] at h
  rw [← OperatorTable.classify_eq_keyword_iff.mp hk]
  split at h
  next name value =>
    obtain ⟨v, hv, h⟩ := bind_eq_ok_iff.mp h
    cases h
    exact .definition (ih value (by simp) v hv)
  next => cases h
  next => cases h

theorem recognised_of_if (hk : table.classify name = .keyword .conditional)
    (h : ofItems table (.symbol name :: parts) = .ok e) :
    Recognised table (.list (.symbol name :: parts)) e := by
  rw [ofItems.eq_def] at h
  simp only [hk] at h
  rw [← OperatorTable.classify_eq_keyword_iff.mp hk]
  split at h
  next test yes no =>
    obtain ⟨t, ht, h⟩ := bind_eq_ok_iff.mp h
    obtain ⟨y, hy, h⟩ := bind_eq_ok_iff.mp h
    obtain ⟨n, hn, h⟩ := bind_eq_ok_iff.mp h
    cases h
    exact .conditional (ih test (by simp) t ht) (ih yes (by simp) y hy) (ih no (by simp) n hn)
  next => cases h

theorem recognised_of_lambda (hk : table.classify name = .keyword .lambda)
    (h : ofItems table (.symbol name :: parts) = .ok e) :
    Recognised table (.list (.symbol name :: parts)) e := by
  rw [ofItems.eq_def] at h
  simp only [hk] at h
  rw [← OperatorTable.classify_eq_keyword_iff.mp hk]
  split at h
  next params body =>
    obtain ⟨names, hnames, h⟩ := bind_eq_ok_iff.mp h
    obtain ⟨b, hb, h⟩ := bind_eq_ok_iff.mp h
    cases h
    rw [eq_map_symbol_of_parameterNames hnames]
    exact .lambda (ih body (by simp) b hb)
  next => cases h
  next => cases h

end List

theorem recognised_of_ofItems {items : List Datum} {e : Expr}
    (ih : ∀ d ∈ items, ∀ e, ofDatum table d = .ok e → Recognised table d e)
    (h : ofItems table items = .ok e) : Recognised table (.list items) e := by
  cases items with
  | nil => cases h
  | cons head parts =>
    rw [List.forall_mem_cons] at ih
    by_cases hhead : ∃ name, head = .symbol name ∧ table.classify name ≠ .ordinary
    · obtain ⟨name, rfl, hname⟩ := hhead
      cases hclass : table.classify name with
      | operator op => exact recognised_of_operator ih.2 hclass h
      | keyword k =>
        cases k with
        | define => exact recognised_of_define ih.2 hclass h
        | conditional => exact recognised_of_if ih.2 hclass h
        | lambda => exact recognised_of_lambda ih.2 hclass h
      | ordinary => exact absurd hclass hname
    · have hordinary : ∀ name, head = .symbol name → table.classify name = .ordinary :=
        fun name hname ↦ Decidable.byContradiction fun hne ↦ hhead ⟨name, hname, hne⟩
      rw [ofItems_cons hordinary] at h
      obtain ⟨c, hc, h⟩ := bind_eq_ok_iff.mp h
      obtain ⟨as, has, h⟩ := bind_eq_ok_iff.mp h
      cases h
      exact .call (ih.1 c hc) (allRecognised_of_ofAll ih.2 has)

theorem recognised_of_ofDatum {d : Datum} {e : Expr} (h : ofDatum table d = .ok e) :
    Recognised table d e := by
  induction d generalizing e with
  | list items ih => exact recognised_of_ofItems (fun d hd e he ↦ ih d hd he) h
  | symbol name =>
    cases h
    exact .symbol name
  | integer value =>
    cases h
    exact .integer value
  | bool value =>
    cases h
    exact .bool value
  | quote inner ih =>
    cases h
    exact .quote inner

/-! ## What an expression spells -/

mutual

theorem Recognised.toDatum_eq :
    ∀ {d : Datum} {e : Expr}, Recognised table d e → e.toDatum = d
  | _, _, .integer _ | _, _, .bool _ | _, _, .quote _ | _, _, .symbol _ => rfl
  | _, _, .definition h => by rw [toDatum, h.toDatum_eq]
  | _, _, .conditional h₁ h₂ h₃ => by rw [toDatum, h₁.toDatum_eq, h₂.toDatum_eq, h₃.toDatum_eq]
  | _, _, .binary h₁ h₂ => by rw [toDatum, h₁.toDatum_eq, h₂.toDatum_eq]
  | _, _, .lambda h => by rw [toDatum, h.toDatum_eq]
  | _, _, .call h hargs => by rw [toDatum, h.toDatum_eq, hargs.toData_eq]

theorem AllRecognised.toData_eq :
    ∀ {ds : List Datum} {es : List Expr}, AllRecognised table ds es → toData es = ds
  | _, _, .nil => rfl
  | _, _, .cons h hs => by rw [toData, h.toDatum_eq, hs.toData_eq]

end

theorem toDatum_of_ofDatum {d : Datum} {e : Expr} (h : ofDatum table d = .ok e) : e.toDatum = d :=
  (recognised_of_ofDatum h).toDatum_eq

/-! ## Reading an expression again -/

theorem items_chars {d : Datum} (h : d.Readable) : Datum.items d.chars = [.ok d] := by
  have hread := h.read_chars Text.stops_nil
  rw [List.append_nil] at hread
  rw [Datum.items_of_read hread, Datum.items_of_layout rfl]

/-- The text of an expression from a readable datum parses as this one expression. -/
theorem parse_render {d : Datum} {e : Expr} (hd : d.Readable) (h : ofDatum table d = .ok e)
    (root : FrameId) : Session.parse ⟨table, root⟩ e.render = .ok [e] := by
  have hbuild : Session.buildItem ⟨table, root⟩ (.ok d) = .ok e := Session.buildItem_of_ofDatum h
  rw [Session.parse, render, toDatum_of_ofDatum h, Datum.render, String.toList_ofList,
    items_chars hd, List.mapM_cons, hbuild]
  rfl

/-- **Recognising loses nothing.** An expression has the text of the datum in which it was
recognised, it is recognised in no other datum under the same operators, and if the datum was read
from some text, then the text of the expression parses as exactly this expression. -/
theorem ofDatum_lossless {d : Datum} {e : Expr} (h : ofDatum table d = .ok e) :
    e.render = d.render ∧ (∀ d', ofDatum table d' = .ok e → d' = d) ∧
      ∀ text offset next, Datum.readAt text offset = some (.ok (d, next)) →
        ∀ root, Session.parse ⟨table, root⟩ e.render = .ok [e] := by
  refine ⟨?_, fun d' h' ↦ ?_, fun text offset next hread ↦ ?_⟩
  · rw [render, toDatum_of_ofDatum h]
  · rw [← toDatum_of_ofDatum h, ← toDatum_of_ofDatum h']
  · exact parse_render (Datum.readable_of_readAt hread) h

/-- The call of a lambda whose body uses an operator that the table lacks: the addition becomes a
call, and is spelled as one. -/
theorem ofDatum_lossless_call_of_lambda :
    let table := OperatorTable.only [.mul]
    let e := call (lambda ["x"] (call (symbol "+") [symbol "x", literal (.bool true)]))
      [literal (.quote (.list []))]
    ∃ d, ofDatum table d = .ok e ∧ e.render = d.render ∧
      Session.parse ⟨table, 0⟩ e.render = .ok [e] := by
  intro table e
  have hread : Datum.read "((lambda (x) (+ x #t)) '())".toList = .ok (e.toDatum, []) := by cbv
  have hreadAt := Datum.readAt_byteLength [] "((lambda (x) (+ x #t)) '())".toList
  rw [hread] at hreadAt
  have h : ofDatum table e.toDatum = .ok e := by cbv
  obtain ⟨hrender, -, hparse⟩ := ofDatum_lossless h
  exact ⟨_, h, hrender, hparse _ _ _ hreadAt 0⟩

end Expr

end LexicalLisp
