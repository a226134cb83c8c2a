import LexicalLisp.Proofs.Forms.CoreForms

/-!
# Fewer operators in force

A table that lacks some operators of another one takes their symbols for ordinary names. What is
built under the larger table is built under the smaller one too, and the operations of the missing
operators have become calls (`Expr.restrict`); nothing else changes. The other way round, what is
built under the smaller table is refused under the larger one only where one of the additional
operators stands at the head of a form with a wrong number of operands, since this is the only thing
that the larger table asks for and the smaller one does not
(`Expr.restricting_operators_is_conservative`).

Both directions rest on how roles depend on the table: the head of a list keeps its role under the
smaller table, or it is the symbol of an additional operator and becomes ordinary
(`Datum.HasRole.restrict`).
-/

namespace LexicalLisp

variable {table larger : OperatorTable}

/-- Under a smaller table a head keeps its role, or it has lost the role of an operator. -/
theorem Datum.HasRole.restrict {head : Datum} {role : Head} (hsub : ∀ op ∈ table, op ∈ larger)
    (h : head.HasRole larger role) :
    head.HasRole table role ∨
      ∃ op ∈ larger, op ∉ table ∧ head = .symbol op.symbol ∧ role = .operator op ∧
        head.HasRole table .ordinary := by
  cases h with
  | @operator op hop =>
    by_cases hmem : op ∈ table
    · exact .inl (.operator hmem)
    · refine .inr ⟨op, hop, hmem, rfl, rfl, .ordinary (fun op' hop' heq ↦ hmem ?_) fun k heq ↦ ?_⟩
      · rwa [Operator.symbol_inj (Datum.symbol.inj heq)]
      · exact OperatorTable.symbol_ne_word op k (Datum.symbol.inj heq)
  | keyword k => exact .inl (.keyword k)
  | ordinary hop hword => exact .inl (.ordinary (fun op h ↦ hop op (hsub op h)) hword)

namespace Expr

mutual

/-- The expression in which an operation whose operator the table lacks is a call of the symbol of
the operator. -/
def restrict (table : OperatorTable) : Expr → Expr
  | .literal datum => .literal datum
  | .symbol name => .symbol name
  | .definition name value => .definition name (restrict table value)
  | .conditional test yes no =>
    .conditional (restrict table test) (restrict table yes) (restrict table no)
  | .binary op left right =>
    if op ∈ table then .binary op (restrict table left) (restrict table right)
    else .call (.symbol op.symbol) [restrict table left, restrict table right]
  | .lambda params body => .lambda params (restrict table body)
  | .call callee args => .call (restrict table callee) (restrictAll table args)

/-- The expressions of a list in which such operations are calls. -/
def restrictAll (table : OperatorTable) : List Expr → List Expr
  | [] => []
  | e :: rest => restrict table e :: restrictAll table rest

end

/-! ## Building under the smaller table -/

section CarriesOver

variable {α β γ δ : Type}

/-- A success on one side is a success on the other, with the image of its result. -/
def CarriesOver (g : α → β) (result : Except Malformation α) (result' : Except Malformation β) :
    Prop :=
  ∀ a, result = .ok a → result' = .ok (g a)

theorem carriesOver_ok {g : α → β} {a : α} {b : β} (h : g a = b) :
    CarriesOver g (.ok a) (.ok b) := by
  rintro _ ⟨⟩
  rw [h]

theorem carriesOver_error {g : α → β} {result' : Except Malformation β} (defect : Malformation) :
    CarriesOver g (.error defect) result' := by
  rintro _ ⟨⟩

theorem CarriesOver.bind {g : α → β} {g' : γ → δ} {result : Except Malformation α}
    {result' : Except Malformation β} {k : α → Except Malformation γ}
    {k' : β → Except Malformation δ} (h : CarriesOver g result result')
    (hk : ∀ a, CarriesOver g' (k a) (k' (g a))) :
    CarriesOver g' (result >>= k) (result' >>= k') := by
  cases result with
  | error defect => exact carriesOver_error defect
  | ok a =>
    rw [h a rfl]
    exact hk a

end CarriesOver

theorem carriesOver_ofAll {ds : List Datum}
    (h : ∀ d ∈ ds, CarriesOver (restrict table) (ofDatum larger d) (ofDatum table d)) :
    CarriesOver (restrictAll table) (ofAll larger ds) (ofAll table ds) := by
  induction ds with
  | nil => exact carriesOver_ok rfl
  | cons d ds ih =>
    obtain ⟨hd, hds⟩ := List.forall_mem_cons.mp h
    rw [ofAll, ofAll]
    exact hd.bind fun e ↦ (ih hds).bind fun es ↦ carriesOver_ok rfl

theorem carriesOver_operands {op : Operator} {left right : Datum} (hop : op ∈ larger)
    (hmem : op ∉ table) (hrole : (Datum.symbol op.symbol).HasRole table .ordinary)
    (hleft : CarriesOver (restrict table) (ofDatum larger left) (ofDatum table left))
    (hright : CarriesOver (restrict table) (ofDatum larger right) (ofDatum table right)) :
    CarriesOver (restrict table) (ofItems larger [.symbol op.symbol, left, right])
      (ofItems table [.symbol op.symbol, left, right]) := by
  rw [ofItems_operands hop, ofItems_call hrole]
  simp only [ofAll, bind_assoc, ofDatum]
  refine hleft.bind fun l ↦ hright.bind fun r ↦ carriesOver_ok ?_
  rw [restrict, if_neg hmem]

theorem carriesOver_ofItems (hsub : ∀ op ∈ table, op ∈ larger) {items forms : List Datum}
    (hshaped : Shaped larger items forms)
    (ih : ∀ d ∈ forms, CarriesOver (restrict table) (ofDatum larger d) (ofDatum table d)) :
    CarriesOver (restrict table) (ofItems larger items) (ofItems table items) := by
  cases hshaped with
  | call hrole args =>
    obtain ⟨hhead, hargs⟩ := List.forall_mem_cons.mp ih
    rcases hrole.restrict hsub with hrole' | ⟨op, -, -, -, heq, -⟩
    · rw [ofItems_call hrole, ofItems_call hrole']
      exact hhead.bind fun c ↦ (carriesOver_ofAll hargs).bind fun as ↦ carriesOver_ok rfl
    · cases heq
  | special hrole h =>
    cases h with
    | operands op left right =>
      have hleft := ih left (by simp)
      have hright := ih right (by simp)
      rcases hrole.restrict hsub with hrole' | ⟨op, hop, hmem, rfl, heq, hrole'⟩
      · obtain ⟨rfl, hop⟩ := hrole.of_operator
        obtain ⟨-, hmem⟩ := hrole'.of_operator
        rw [ofItems_operands hop, ofItems_operands hmem]
        refine hleft.bind fun l ↦ hright.bind fun r ↦ carriesOver_ok ?_
        rw [restrict, if_pos hmem]
      · exact carriesOver_operands hop hmem hrole' hleft hright
    | definition name value =>
      cases hrole
      rw [ofItems_definition, ofItems_definition]
      exact (ih value (by simp)).bind fun v ↦ carriesOver_ok rfl
    | conditional test yes no =>
      cases hrole
      rw [ofItems_conditional, ofItems_conditional]
      refine (ih test (by simp)).bind fun t ↦ (ih yes (by simp)).bind fun y ↦ ?_
      exact (ih no (by simp)).bind fun n ↦ carriesOver_ok rfl
    | lambda params body =>
      cases hrole
      rw [ofItems_lambda, ofItems_lambda]
      exact (ih body (by simp)).bind fun b ↦ carriesOver_ok rfl

/-- What is built under a table is built under a smaller one, and is restricted. -/
theorem carriesOver_ofDatum (hsub : ∀ op ∈ table, op ∈ larger) (d : Datum) :
    CarriesOver (restrict table) (ofDatum larger d) (ofDatum table d) := by
  induction d with
  | list items ih =>
    rw [ofDatum, ofDatum]
    rcases shaped_or_illShaped larger items with ⟨forms, h⟩ | ⟨defect, h⟩
    · exact carriesOver_ofItems hsub h fun d hd ↦ ih d (h.mem d hd)
    · rw [ofItems_of_illShaped h]
      exact carriesOver_error defect
  | _ => exact carriesOver_ok rfl

/-! ## Building under the larger table -/

/-- A list that is well-shaped under a table is ill-shaped under a larger one exactly if an
additional operator at its head finds a wrong number of operands. -/
theorem illShaped_iff_of_shaped (hsub : ∀ op ∈ table, op ∈ larger) {items forms : List Datum}
    (h : Shaped table items forms) :
    (∃ defect, IllShaped larger items defect) ↔
      ∃ op ∈ larger, op ∉ table ∧ ∃ parts, items = .symbol op.symbol :: parts ∧
        parts.length ≠ 2 := by
  constructor
  · rintro ⟨defect, hill⟩
    cases hill with
    | empty => cases h
    | special hrole hrefuses =>
      rcases hrole.restrict hsub with hrole' | ⟨op, hop, hmem, rfl, rfl, -⟩
      · exact absurd (.special hrole' hrefuses) h.not_illShaped
      · cases hrefuses with
        | operandCount _ hlength => exact ⟨op, hop, hmem, _, rfl, hlength⟩
  · rintro ⟨op, hop, -, parts, rfl, hlength⟩
    exact ⟨_, .special (.operator hop) (.operandCount op hlength)⟩

/-- **Restricting the operators is conservative.** What is built under a table is built under every
smaller one, with the operations of the missing operators turned into calls. And what is built under
the smaller table is refused under the larger one exactly if one of the lists that stand as forms
has an additional operator at its head and not two operands behind it. -/
theorem restricting_operators_is_conservative (hsub : ∀ op ∈ table, op ∈ larger) (d : Datum) :
    (∀ e, ofDatum larger d = .ok e → ofDatum table d = .ok (e.restrict table)) ∧
      ∀ e, ofDatum table d = .ok e →
        ((∃ defect, ofDatum larger d = .error defect) ↔
          ∃ items ∈ d.combinations, ∃ op ∈ larger, op ∉ table ∧
            ∃ parts, items = .symbol op.symbol :: parts ∧ parts.length ≠ 2) := by
  refine ⟨carriesOver_ofDatum hsub d, fun e h ↦ ?_⟩
  have hshaped := exists_ofDatum_eq_ok_iff.mp ⟨e, h⟩
  rw [exists_ofDatum_eq_error_iff]
  refine exists_congr fun items ↦ and_congr_right fun hmem ↦ ?_
  obtain ⟨forms, hforms⟩ := hshaped items hmem
  exact illShaped_iff_of_shaped hsub hforms

/-- Without the operator of differences its symbol is a name. As a parameter and in a quote it was
one before, at the head of a form with two operands it makes a call now, and with a single operand
it makes a call where it was refused. -/
theorem restricting_operators_is_conservative_difference :
    let table := OperatorTable.only [.add]
    let larger := OperatorTable.only [.sub, .add]
    let minus := Datum.symbol "-"
    let sum := Datum.list [.symbol "+", minus, .bool true]
    let d := Datum.list
      [.symbol "lambda", .list [minus], .list [minus, sum, .quote (.list [minus])]]
    let d' := Datum.list [.symbol "define", .symbol "x", .list [minus, .bool true]]
    let e := binary .add (symbol "-") (literal (.bool true))
    (∀ op ∈ table, op ∈ larger) ∧
      ofDatum larger d =
        .ok (lambda ["-"] (binary .sub e (literal (.quote (.list [minus]))))) ∧
      ofDatum table d =
        .ok (lambda ["-"] (call (symbol "-") [e, literal (.quote (.list [minus]))])) ∧
      ofDatum table d' = .ok (definition "x" (call (symbol "-") [literal (.bool true)])) ∧
      ∃ defect, ofDatum larger d' = .error defect := by
  intro table larger minus sum d d' e
  have hsub : ∀ op ∈ table, op ∈ larger := by
    intro op hop
    rw [OperatorTable.mem_only] at hop ⊢
    exact List.mem_cons_of_mem _ hop
  have hlarger : ofDatum larger d =
      .ok (lambda ["-"] (binary .sub e (literal (.quote (.list [minus]))))) := by decide
  have hsmaller : ofDatum table d' =
      .ok (definition "x" (call (symbol "-") [literal (.bool true)])) := by decide
  obtain ⟨hbuilt, -⟩ := restricting_operators_is_conservative hsub d
  obtain ⟨-, hrefused⟩ := restricting_operators_is_conservative hsub d'
  refine ⟨hsub, hlarger, ?_, hsmaller, (hrefused _ hsmaller).mpr ?_⟩
  · rw [hbuilt _ hlarger]
    decide
  · exact ⟨[minus, .bool true], by decide, .sub, by decide, by decide, _, rfl, by decide⟩

end Expr

end LexicalLisp
