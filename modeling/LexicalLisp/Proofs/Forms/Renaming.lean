import LexicalLisp.Proofs.Evaluation.Equivariance
import LexicalLisp.Proofs.Forms.Spelling

/-!
# Names carry no meaning

Apart from the keywords and the operators in force, a name means nothing but what is bound to it. A
renaming that keeps these words takes forms to forms: what is recognised in the renamed datum is the
renamed expression, or the renamed malformation (`Expr.ofDatum_rename`). The evaluation of a renamed
expression in the renamed store is the renamed evaluation, for any renaming at all, since an
operator in an expression is no name any more.

A renaming exchanges names one for one. So it can exchange the symbol of an operator that is not in
force with any ordinary name (`OperatorTable.keptBy_swap`), and such a symbol is an ordinary name
itself.
-/

namespace LexicalLisp

variable {table : OperatorTable} {ρ : Equiv.Perm String}

/-! ## Other names -/

namespace Datum

mutual

/-- The datum with other names. -/
def rename (ρ : Equiv.Perm String) : Datum → Datum
  | .list items => .list (renameAll ρ items)
  | .symbol name => .symbol (ρ name)
  | .integer value => .integer value
  | .bool value => .bool value
  | .quote inner => .quote (rename ρ inner)

/-- The data of a list with other names. -/
def renameAll (ρ : Equiv.Perm String) : List Datum → List Datum
  | [] => []
  | d :: rest => rename ρ d :: renameAll ρ rest

end

theorem renameAll_eq_map (ρ : Equiv.Perm String) (ds : List Datum) :
    renameAll ρ ds = ds.map (rename ρ) := by
  induction ds with
  | nil => rfl
  | cons d ds ih => rw [renameAll, List.map_cons, ih]

end Datum

/-- Names are exchanged everywhere, in quoted data too. -/
def Translation.renaming (ρ : Equiv.Perm String) : Translation where
  name := ρ
  quoted := Datum.rename ρ
  items := Datum.renameAll ρ

/-- The expression with other names. -/
def Expr.rename (ρ : Equiv.Perm String) (e : Expr) : Expr := e.translate (.renaming ρ)

/-- The malformation with other names. -/
def Malformation.rename (ρ : Equiv.Perm String) : Malformation → Malformation
  | definitionName found => definitionName (found.rename ρ)
  | parameterList found => parameterList (found.rename ρ)
  | parameterName found => parameterName (found.rename ρ)
  | literal found => literal (found.rename ρ)
  | defect => defect

/-! ## Words that keep their meaning -/

namespace OperatorTable

/-- The keywords and the symbols of the operators in force keep their names. -/
structure KeptBy (table : OperatorTable) (ρ : Equiv.Perm String) : Prop where
  word : ∀ k : Keyword, ρ k.word = k.word
  symbol : ∀ op ∈ table, ρ op.symbol = op.symbol

theorem classify_rename (hρ : table.KeptBy ρ) (name : String) :
    table.classify (ρ name) = table.classify name := by
  obtain ⟨op, hop, rfl, -⟩ | ⟨k, rfl, -⟩ | ⟨hop, hword, hrole⟩ := table.classify_cases name
  · rw [hρ.symbol op hop]
  · rw [hρ.word k]
  · rw [hrole]
    refine classify_ordinary (fun op h heq ↦ hop op h ?_) fun k heq ↦ hword k ?_
    · exact ρ.injective ((hρ.symbol op h).trans heq)
    · exact ρ.injective ((hρ.word k).trans heq)

theorem classify_symbol_of_not_mem {op : Operator} (h : op ∉ table) :
    table.classify op.symbol = .ordinary := by
  refine classify_ordinary (fun op' hop' heq ↦ h ?_) fun k heq ↦ symbol_ne_word op k heq.symm
  rwa [← Operator.symbol_inj heq]

theorem keptBy_swap {m n : String} (hm : table.classify m = .ordinary)
    (hn : table.classify n = .ordinary) : table.KeptBy (Equiv.swap m n) := by
  have hswap : ∀ {word}, table.classify word ≠ .ordinary → Equiv.swap m n word = word :=
    fun h ↦ Equiv.swap_apply_of_ne_of_ne (fun heq ↦ h (heq ▸ hm)) fun heq ↦ h (heq ▸ hn)
  refine ⟨fun k ↦ hswap ?_, fun op hop ↦ hswap ?_⟩
  · rw [classify_word]
    exact nofun
  · rw [classify_symbol hop]
    exact nofun

end OperatorTable

/-! ## Recognising under other names -/

namespace Expr

section Renamed

variable {α β γ δ : Type}

/-- What recognising gives under other names where it has given this result. -/
def renamed (ρ : Equiv.Perm String) (g : α → β) (result : Except Malformation α) :
    Except Malformation β := (result.map g).mapError (Malformation.rename ρ)

theorem renamed_bind {g : α → β} {h : γ → δ} {result : Except Malformation α}
    {k : α → Except Malformation γ} {k' : β → Except Malformation δ}
    (hk : ∀ a, k' (g a) = renamed ρ h (k a)) :
    (renamed ρ g result >>= k') = renamed ρ h (result >>= k) := by
  cases result with
  | error defect => rfl
  | ok a => exact hk a

end Renamed

theorem parameterNames_rename (ds : List Datum) :
    Datum.parameterNames (ds.map (Datum.rename ρ)) =
      renamed ρ (List.map ρ) (Datum.parameterNames ds) := by
  induction ds with
  | nil => rfl
  | cons d ds ih =>
    cases d with
    | symbol name =>
      rw [List.map_cons, Datum.rename, Datum.parameterNames, Datum.parameterNames, ih]
      cases Datum.parameterNames ds <;> rfl
    | _ => rfl

theorem ofAll_rename {ds : List Datum}
    (h : ∀ d ∈ ds, ofDatum table (d.rename ρ) = renamed ρ (Expr.rename ρ) (ofDatum table d)) :
    ofAll table (ds.map (Datum.rename ρ)) =
      renamed ρ (List.map (Expr.rename ρ)) (ofAll table ds) := by
  induction ds with
  | nil => rfl
  | cons d ds ih =>
    obtain ⟨hd, hds⟩ := List.forall_mem_cons.mp h
    rw [List.map_cons, ofAll, ofAll, hd, ih hds]
    exact renamed_bind fun e ↦ renamed_bind fun es ↦ rfl

theorem rename_call (callee : Expr) (args : List Expr) :
    (call callee args).rename ρ = .call (callee.rename ρ) (args.map (Expr.rename ρ)) := by
  rw [rename, translate, translateAll_eq_map]
  rfl

/-- A list with a name at its head is recognised under other names as it was if the parts behind
the name are. -/
theorem ofItems_symbol_rename (hρ : table.KeptBy ρ) (name : String) {parts : List Datum}
    (hparts : ∀ d ∈ parts,
      ofDatum table (d.rename ρ) = renamed ρ (Expr.rename ρ) (ofDatum table d)) :
    ofItems table (.symbol (ρ name) :: parts.map (Datum.rename ρ)) =
      renamed ρ (Expr.rename ρ) (ofItems table (.symbol name :: parts)) := by
  have hcalled := ofAll_rename hparts
  rw [ofItems.eq_def, ofItems.eq_def table (.symbol name :: parts)]
  dsimp only
  rw [OperatorTable.classify_rename hρ name]
  -- The same number of parts is counted on both sides; if it is the right one, each part counts.
  cases table.classify name with
  | ordinary =>
    dsimp only
    rw [hcalled]
    exact renamed_bind fun args ↦ congrArg Except.ok (rename_call (.symbol name) args).symm
  | operator op =>
    rcases parts with _ | ⟨left, _ | ⟨right, _ | ⟨third, rest⟩⟩⟩
    · rfl
    · rfl
    · simp only [List.forall_mem_cons] at hparts
      obtain ⟨hleft, hright, -⟩ := hparts
      simp only [List.map_cons, List.map_nil, hleft, hright]
      exact renamed_bind fun _ ↦ renamed_bind fun _ ↦ rfl
    · simp only [List.map_cons, List.length_cons, List.length_map]
      rfl
  | keyword k =>
    cases k with
    | define =>
      rcases parts with _ | ⟨found, _ | ⟨value, _ | ⟨third, rest⟩⟩⟩
      · rfl
      · cases found <;> rfl
      · simp only [List.forall_mem_cons] at hparts
        obtain ⟨-, hvalue, -⟩ := hparts
        cases found with
        | symbol name =>
          simp only [List.map_cons, List.map_nil, Datum.rename, hvalue]
          exact renamed_bind fun _ ↦ rfl
        | _ => rfl
      · cases found <;>
          simp only [List.map_cons, Datum.rename, List.length_cons, List.length_map] <;> rfl
    | conditional =>
      rcases parts with _ | ⟨test, _ | ⟨yes, _ | ⟨no, _ | ⟨fourth, rest⟩⟩⟩⟩
      · rfl
      · rfl
      · rfl
      · simp only [List.forall_mem_cons] at hparts
        obtain ⟨htest, hyes, hno, -⟩ := hparts
        simp only [List.map_cons, List.map_nil, htest, hyes, hno]
        exact renamed_bind fun _ ↦ renamed_bind fun _ ↦ renamed_bind fun _ ↦ rfl
      · simp only [List.map_cons, List.length_cons, List.length_map]
        rfl
    | lambda =>
      rcases parts with _ | ⟨found, _ | ⟨body, _ | ⟨third, rest⟩⟩⟩
      · rfl
      · cases found <;> rfl
      · simp only [List.forall_mem_cons] at hparts
        obtain ⟨-, hbody, -⟩ := hparts
        cases found with
        | list params =>
          simp only [List.map_cons, List.map_nil, Datum.rename, Datum.renameAll_eq_map, hbody,
            parameterNames_rename]
          exact renamed_bind fun _ ↦ renamed_bind fun _ ↦ rfl
        | _ => rfl
      · cases found <;>
          simp only [List.map_cons, Datum.rename, List.length_cons, List.length_map] <;> rfl

theorem ofItems_rename (hρ : table.KeptBy ρ) {items : List Datum}
    (h : ∀ d ∈ items, ofDatum table (d.rename ρ) = renamed ρ (Expr.rename ρ) (ofDatum table d)) :
    ofItems table (items.map (Datum.rename ρ)) =
      renamed ρ (Expr.rename ρ) (ofItems table items) := by
  cases items with
  | nil => rfl
  | cons head parts =>
    obtain ⟨hhead, hparts⟩ := List.forall_mem_cons.mp h
    rw [List.map_cons]
    by_cases hsymbol : ∃ name, head = .symbol name
    · obtain ⟨name, rfl⟩ := hsymbol
      exact ofItems_symbol_rename hρ name hparts
    -- What has no name at its head has none under other names either, and is a call.
    · have hcall : ∀ name, head = .symbol name → table.classify name = .ordinary :=
        fun name hname ↦ absurd ⟨name, hname⟩ hsymbol
      have hcall' : ∀ name, head.rename ρ = .symbol name → table.classify name = .ordinary := by
        intro name hname
        cases head with
        | symbol n => exact absurd ⟨n, rfl⟩ hsymbol
        | _ => cases hname
      rw [ofItems_cons hcall, ofItems_cons hcall', hhead, ofAll_rename hparts]
      refine renamed_bind fun callee ↦ renamed_bind fun args ↦ ?_
      exact congrArg Except.ok (rename_call callee args).symm

/-- **Recognising commutes with renaming**, if the keywords and the operators in force keep their
names. -/
theorem ofDatum_rename (hρ : table.KeptBy ρ) (d : Datum) :
    ofDatum table (d.rename ρ) = renamed ρ (Expr.rename ρ) (ofDatum table d) := by
  induction d with
  | list items ih =>
    rw [Datum.rename, Datum.renameAll_eq_map, ofDatum, ofDatum]
    exact ofItems_rename hρ ih
  | symbol name =>
    rw [Datum.rename, ofDatum, ofDatum]
    rfl
  | integer value =>
    rw [Datum.rename, ofDatum]
    rfl
  | bool value =>
    rw [Datum.rename, ofDatum]
    rfl
  | quote inner =>
    rw [Datum.rename, ofDatum, ofDatum]
    rfl

end Expr

/-! ## Evaluating under other names -/

/-- **Names carry no meaning** beyond the keywords and the operators in force. Under a renaming that
keeps these words, a datum is recognised as the renamed expression, or refused for the renamed
defect. Under any renaming, an expression is evaluated in the renamed store exactly if it was
before, and ends in the renamed value, or in a fault of the same kind whose trail has the texts of
the renamed active forms; what is left behind is the renamed store. And the symbol of an operator
that is not in force is an ordinary name, and a renaming can exchange it with any other one. -/
theorem names_carry_no_meaning (table : OperatorTable) :
    (∀ ρ, table.KeptBy ρ → ∀ d : Datum,
      Expr.ofDatum table (d.rename ρ) =
        ((Expr.ofDatum table d).map (Expr.rename ρ)).mapError (Malformation.rename ρ)) ∧
    (∀ (ρ : Equiv.Perm String) (depth : Nat) (site : Site) (f : FrameId) (e : Expr) (s : Store),
      let t := Translation.renaming ρ
      let original := eval depth site f e s
      let renamed := eval depth site f (e.rename ρ) (s.translate t)
      (renamed = none ↔ original = none) ∧
      (∀ v s' es, original = some ⟨.ok v, s', es⟩ →
        renamed = some ⟨.ok (v.translate t), s'.translate t, es.map (Event.translate t)⟩) ∧
      ∀ fault s' es, original = some ⟨.error fault, s', es⟩ → ∃ (x : Failure) (fault' : Fault),
        (descend depth site f e []).run s = some ⟨.ok (.error x), s', es⟩ ∧ fault = x.toFault ∧
        renamed = some ⟨.error fault', s'.translate t, es.map (Event.translate t)⟩ ∧
        fault'.cause.kind = fault.cause.kind ∧
        fault'.trail = x.operator.toList.map (fun op ↦ "operator " ++ op.symbol) ++
          x.active.map (fun form ↦ (form.expr.rename ρ).render)) ∧
    ∀ op : Operator, op ∉ table → table.classify op.symbol = .ordinary ∧
      ∀ name, table.classify name = .ordinary → table.KeptBy (Equiv.swap op.symbol name) := by
  refine ⟨fun ρ hρ d ↦ Expr.ofDatum_rename hρ d, ?_, fun op hop ↦ ?_⟩
  · intro ρ depth site f e s t original renamed
    refine ⟨eval_translate_eq_none_iff t depth site f e s, fun v s' es h ↦ eval_translate_of_ok h,
      fun fault s' es h ↦ ?_⟩
    obtain ⟨x, hx, hfault, cause', hkind, hrenamed⟩ := eval_translate_of_error (t := t) h
    refine ⟨x, _, hx, hfault, hrenamed, hkind, ?_⟩
    simp only [Failure.toFault, Failure.trail, List.map_map, Function.comp_def,
      ActiveForm.expr_translate]
    rfl
  · have hordinary : table.classify op.symbol = .ordinary :=
      OperatorTable.classify_symbol_of_not_mem hop
    exact ⟨hordinary, fun name hname ↦ OperatorTable.keptBy_swap hordinary hname⟩

/-- Where only sums are in force, the symbol of differences can be bound and called. A call fails in
the body of the closure, and under another name it does so with the other name in the trail. -/
theorem names_carry_no_meaning_symbol_of_difference :
    let table := OperatorTable.only [.add]
    let ρ := Equiv.swap Operator.sub.symbol "g"
    let d := Datum.list [.symbol "define", .symbol "y", .list [.symbol "-", .bool true]]
    let e := Expr.definition "y" (.call (.symbol "-") [.literal (.bool true)])
    let e' := Expr.definition "y" (.call (.symbol "g") [.literal (.bool true)])
    let l : Lambda := ⟨[0], ["x"], .binary .add (.symbol "x") (.symbol "x")⟩
    let s := (Store.empty.newFrame none).2.bind 0 "-" (.closure ⟨l, 0⟩)
    Operator.sub ∉ table ∧ table.KeptBy ρ ∧ Expr.ofDatum table (d.rename ρ) = .ok (e.rename ρ) ∧
      e.rename ρ = e' ∧
      ∃ fault' s' es,
        eval 5 [1] 0 e' (s.translate (.renaming ρ)) = some ⟨.error fault', s', es⟩ ∧
        fault'.trail = ["operator " ++ Operator.add.symbol,
          (Expr.call (.symbol "g") [.literal (.bool true)]).render, e'.render] := by
  intro table ρ d e e' l s
  have hsub : Operator.sub ∉ table := by decide
  obtain ⟨hbuild, heval, hordinary⟩ := names_carry_no_meaning table
  have hρ : table.KeptBy ρ := (hordinary .sub hsub).2 "g" (by decide)
  have hrename : e.rename ρ = e' := by decide
  have hd : Expr.ofDatum table d = .ok e := rfl
  obtain ⟨-, -, herror⟩ := heval ρ 5 [1] 0 e s
  have hfails : ((eval 5 [1] 0 e s).map fun r ↦ r.result.isOk) = some false := by decide +kernel
  obtain ⟨⟨result, s', es⟩, hrun, hresult⟩ := Option.map_eq_some_iff.mp hfails
  cases result with
  | ok v => cases hresult
  | error fault =>
    obtain ⟨x, fault', hx, -, hrenamed, -, htrail⟩ := herror fault s' es hrun
    have hactive : (((descend 5 [1] 0 e []).run s).map fun r ↦
        r.result.map (Except.mapError fun x ↦ (x.operator, x.active.map ActiveForm.expr))) =
        some (.ok (.error (some .add, [.call (.symbol "-") [.literal (.bool true)], e]))) := by
      decide +kernel
    rw [hx, Option.map_some, Option.some_inj] at hactive
    injection hactive with hactive
    injection hactive with hactive
    obtain ⟨hoperator, hforms⟩ := Prod.mk.inj hactive
    rw [hrename] at hrenamed
    refine ⟨hsub, hρ, ?_, hrename, fault', _, _, hrenamed, ?_⟩
    · rw [hbuild ρ hρ d, hd]
      rfl
    · have hcall : (Expr.call (.symbol "-") [.literal (.bool true)]).rename ρ =
          .call (.symbol "g") [.literal (.bool true)] := by decide
      have hrender : x.active.map (fun form ↦ (form.expr.rename ρ).render) =
          (x.active.map ActiveForm.expr).map fun form ↦ (form.rename ρ).render := by
        rw [List.map_map]
        rfl
      rw [htrail, hoperator, hrender, hforms, List.map_cons, List.map_cons, hcall, hrename]
      rfl

end LexicalLisp
