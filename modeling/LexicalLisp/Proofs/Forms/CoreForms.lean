import LexicalLisp.Proofs.Forms.Spelling
import LexicalLisp.Proofs.Evaluation.Outcomes
import Mathlib.Data.List.Basic

/-!
# The core forms

A datum is the spelling of an expression exactly if it is no list, or a list whose parts are what
its head asks for and whose inner forms are spellings again (`CoreForm`). What a head asks for
depends on its role alone: a head admits the parts behind it, and then some of them are forms
(`Head.Admits`), or it refuses them, and there is one reason why (`Head.Refuses`).

A list stands as a form if it is neither inside a quote nor inside a parameter list. All lists that
do so are taken from outside in and from left to right (`Datum.combinations`), and the first one
that is ill-shaped decides why a datum is refused (`Expr.build_accepts_exactly_the_core_forms`).
Nothing else is ever looked at.

Recognition meets the lists in just this order. So it settles them one after another
(`Expr.Settles`): a success finds all of them well-shaped, and a malformation is that of the first
one which is not.
-/

namespace LexicalLisp

/-! ## Roles of heads -/

/-- The role of a datum at the head of a list. -/
inductive Datum.HasRole (table : OperatorTable) : Datum → Head → Prop
  | operator {op : Operator} (h : op ∈ table) : HasRole table (.symbol op.symbol) (.operator op)
  | keyword (k : Keyword) : HasRole table (.symbol k.word) (.keyword k)
  | ordinary {head : Datum} (hop : ∀ op ∈ table, head ≠ .symbol op.symbol)
    (hword : ∀ k : Keyword, head ≠ .symbol k.word) : HasRole table head .ordinary

/-- The parts behind a head that begins a special form are the right ones. The second list holds
those of them that have to be forms in their turn. -/
inductive Head.Admits : Head → List Datum → List Datum → Prop
  | operands (op : Operator) (left right : Datum) :
    Admits (.operator op) [left, right] [left, right]
  | definition (name : String) (value : Datum) :
    Admits (.keyword .define) [.symbol name, value] [value]
  | conditional (test yes no : Datum) :
    Admits (.keyword .conditional) [test, yes, no] [test, yes, no]
  | lambda (params : List String) (body : Datum) :
    Admits (.keyword .lambda) [.list (params.map .symbol), body] [body]

/-- The parts behind a head that begins a special form are not the right ones, and why. -/
inductive Head.Refuses : Head → List Datum → Malformation → Prop
  | operandCount (op : Operator) {parts : List Datum} (h : parts.length ≠ 2) :
    Refuses (.operator op) parts (.operandCount op parts.length)
  | definitionCount {parts : List Datum} (h : parts.length ≠ 2) :
    Refuses (.keyword .define) parts (.definitionCount parts.length)
  | definitionName {found : Datum} (value : Datum) (h : ∀ name, found ≠ .symbol name) :
    Refuses (.keyword .define) [found, value] (.definitionName found)
  | conditionalCount {parts : List Datum} (h : parts.length ≠ 3) :
    Refuses (.keyword .conditional) parts (.conditionalCount parts.length)
  | lambdaCount {parts : List Datum} (h : parts.length ≠ 2) :
    Refuses (.keyword .lambda) parts (.lambdaCount parts.length)
  | parameterList {found : Datum} (body : Datum) (h : ∀ params, found ≠ .list params) :
    Refuses (.keyword .lambda) [found, body] (.parameterList found)
  | parameterName (names : List String) {found : Datum} (rest : List Datum) (body : Datum)
    (h : ∀ name, found ≠ .symbol name) :
    Refuses (.keyword .lambda) [.list (names.map .symbol ++ found :: rest), body]
      (.parameterName found)

namespace Expr

/-- A list has the shape that its head asks for. The second list holds those of its items that have
to be forms in their turn. -/
inductive Shaped (table : OperatorTable) : List Datum → List Datum → Prop
  | special {head : Datum} {role : Head} {parts forms : List Datum}
    (hrole : head.HasRole table role) (h : role.Admits parts forms) :
    Shaped table (head :: parts) forms
  | call {head : Datum} (hrole : head.HasRole table .ordinary) (args : List Datum) :
    Shaped table (head :: args) (head :: args)

/-- A list does not have the shape that its head asks for, and why. -/
inductive IllShaped (table : OperatorTable) : List Datum → Malformation → Prop
  | empty : IllShaped table [] .emptyCombination
  | special {head : Datum} {role : Head} {parts : List Datum} {defect : Malformation}
    (hrole : head.HasRole table role) (h : role.Refuses parts defect) :
    IllShaped table (head :: parts) defect

/-- The first ill-shaped list of a sequence has the defect. -/
inductive FirstDefect (table : OperatorTable) : List (List Datum) → Malformation → Prop
  | here {items : List Datum} {defect : Malformation} (h : IllShaped table items defect)
    (rest : List (List Datum)) : FirstDefect table (items :: rest) defect
  | later {items forms : List Datum} {rest : List (List Datum)} {defect : Malformation}
    (h : Shaped table items forms) (hrest : FirstDefect table rest defect) :
    FirstDefect table (items :: rest) defect

/-- The core syntax: whatever is no list, and every list of the right shape whose inner forms belong
to the core syntax. -/
inductive CoreForm (table : OperatorTable) : Datum → Prop
  | atom {d : Datum} (h : ∀ items, d ≠ .list items) : CoreForm table d
  | list {items forms : List Datum} (h : Shaped table items forms)
    (hforms : ∀ d ∈ forms, CoreForm table d) : CoreForm table (.list items)

end Expr

/-! ## The lists that stand as forms -/

namespace Datum

mutual

/-- The lists that stand as forms in a datum, from outside in and from left to right. -/
def combinations : Datum → List (List Datum)
  | .list items => items :: combinationsIn items
  | _ => []

/-- The lists that stand as forms among the items of a list. Right behind the keyword of a lambda
there is no form. -/
def combinationsIn : List Datum → List (List Datum)
  | [] => []
  | [head] => combinations head
  | head :: second :: rest =>
    combinations head ++
      ((if head = .symbol Keyword.lambda.word then [] else combinations second) ++
        combinationsAll rest)

/-- The lists that stand as forms in several data. -/
def combinationsAll : List Datum → List (List Datum)
  | [] => []
  | d :: rest => combinations d ++ combinationsAll rest

end

end Datum

variable {table : OperatorTable}

/-! ## Heads and their parts -/

namespace Datum

variable {head : Datum} {role : Head}

theorem hasRole_symbol_iff {name : String} :
    (symbol name).HasRole table role ↔ table.classify name = role := by
  constructor
  · intro h
    cases h with
    | operator h => exact OperatorTable.classify_symbol h
    | keyword k => exact OperatorTable.classify_word k
    | ordinary hop hword =>
      exact OperatorTable.classify_ordinary (fun op h heq ↦ hop op h (congrArg symbol heq.symm))
        fun k heq ↦ hword k (congrArg symbol heq.symm)
  · intro h
    cases role with
    | operator op =>
      obtain ⟨hop, rfl⟩ := OperatorTable.classify_eq_operator_iff.mp h
      exact .operator hop
    | keyword k =>
      obtain rfl := OperatorTable.classify_eq_keyword_iff.mp h
      exact .keyword k
    | ordinary =>
      refine .ordinary (fun op hop heq ↦ ?_) fun k heq ↦ ?_
      · rw [symbol.inj heq, OperatorTable.classify_symbol hop] at h
        cases h
      · rw [symbol.inj heq, OperatorTable.classify_word] at h
        cases h

theorem hasRole_ordinary (h : ∀ name, head ≠ .symbol name) : head.HasRole table .ordinary :=
  .ordinary (fun _ _ ↦ h _) fun _ ↦ h _

theorem HasRole.exists_name (h : head.HasRole table role) (hrole : role ≠ .ordinary) :
    ∃ name, head = .symbol name ∧ table.classify name = role := by
  cases h with
  | operator h => exact ⟨_, rfl, OperatorTable.classify_symbol h⟩
  | keyword k => exact ⟨_, rfl, OperatorTable.classify_word k⟩
  | ordinary => exact absurd rfl hrole

theorem HasRole.of_operator {op : Operator} (h : head.HasRole table (.operator op)) :
    head = .symbol op.symbol ∧ op ∈ table := by
  cases h with
  | operator h => exact ⟨rfl, h⟩

theorem exists_hasRole (table : OperatorTable) (head : Datum) :
    ∃ role, head.HasRole table role := by
  cases head with
  | symbol name => exact ⟨_, hasRole_symbol_iff.mpr rfl⟩
  | _ => exact ⟨_, hasRole_ordinary fun _ ↦ nofun⟩

theorem HasRole.unique {role' : Head} (h : head.HasRole table role)
    (h' : head.HasRole table role') : role = role' := by
  cases head with
  | symbol name => exact (hasRole_symbol_iff.mp h).symm.trans (hasRole_symbol_iff.mp h')
  | _ =>
    cases h
    cases h'
    rfl

end Datum

namespace Head

variable {role : Head} {parts forms : List Datum}

theorem Admits.mem (h : role.Admits parts forms) : ∀ d ∈ forms, d ∈ parts := by
  cases h <;> simp

theorem Admits.not_refuses {defect : Malformation} (h : role.Admits parts forms) :
    ¬role.Refuses parts defect := by
  cases h with
  | operands =>
    rintro ⟨⟩
    case operandCount h => exact h rfl
  | definition name =>
    rintro ⟨⟩
    case definitionCount h => exact h rfl
    case definitionName h => exact h name rfl
  | conditional =>
    rintro ⟨⟩
    case conditionalCount h => exact h rfl
  | lambda params =>
    intro h
    generalize hparts : params.map Datum.symbol = ds at h
    cases h with
    | lambdaCount h => exact h rfl
    | parameterList _ h => exact h _ rfl
    | parameterName names rest _ h =>
      have hmem := hparts ▸ List.mem_append_right (names.map Datum.symbol) List.mem_cons_self
      obtain ⟨name, -, hname⟩ := List.mem_map.mp hmem
      exact h name hname.symm

theorem map_symbol_or_exists_first (ds : List Datum) :
    (∃ names : List String, ds = names.map .symbol) ∨
      ∃ (names : List String) (found : Datum) (rest : List Datum),
        ds = names.map .symbol ++ found :: rest ∧ ∀ name, found ≠ .symbol name := by
  induction ds with
  | nil => exact .inl ⟨[], rfl⟩
  | cons d ds ih =>
    by_cases hd : ∃ name, d = .symbol name
    · obtain ⟨name, rfl⟩ := hd
      rcases ih with ⟨names, rfl⟩ | ⟨names, found, rest, rfl, h⟩
      · exact .inl ⟨name :: names, rfl⟩
      · exact .inr ⟨name :: names, found, rest, rfl, h⟩
    · exact .inr ⟨[], d, ds, rfl, fun name hname ↦ hd ⟨name, hname⟩⟩

/-- A head that begins a special form admits the parts behind it or refuses them. -/
theorem admits_or_refuses (hrole : role ≠ .ordinary) (parts : List Datum) :
    (∃ forms, role.Admits parts forms) ∨ ∃ defect, role.Refuses parts defect := by
  cases role with
  | ordinary => exact absurd rfl hrole
  | operator op =>
    by_cases h : parts.length = 2
    · obtain ⟨left, right, rfl⟩ := List.length_eq_two.mp h
      exact .inl ⟨_, .operands op left right⟩
    · exact .inr ⟨_, .operandCount op h⟩
  | keyword k =>
    cases k with
    | define =>
      by_cases h : parts.length = 2
      · obtain ⟨found, value, rfl⟩ := List.length_eq_two.mp h
        cases found with
        | symbol name => exact .inl ⟨_, .definition name value⟩
        | _ => exact .inr ⟨_, .definitionName value fun _ ↦ nofun⟩
      · exact .inr ⟨_, .definitionCount h⟩
    | conditional =>
      by_cases h : parts.length = 3
      · obtain ⟨test, yes, no, rfl⟩ := List.length_eq_three.mp h
        exact .inl ⟨_, .conditional test yes no⟩
      · exact .inr ⟨_, .conditionalCount h⟩
    | lambda =>
      by_cases h : parts.length = 2
      · obtain ⟨found, body, rfl⟩ := List.length_eq_two.mp h
        cases found with
        | list params =>
          rcases map_symbol_or_exists_first params with ⟨names, rfl⟩ | ⟨names, d, rest, rfl, hd⟩
          · exact .inl ⟨_, .lambda names body⟩
          · exact .inr ⟨_, .parameterName names rest body hd⟩
        | _ => exact .inr ⟨_, .parameterList body fun _ ↦ nofun⟩
      · exact .inr ⟨_, .lambdaCount h⟩

end Head

theorem Datum.parameterNames_map (names : List String) :
    parameterNames (names.map .symbol) = .ok names := by
  induction names with
  | nil => rfl
  | cons name names ih => rw [List.map_cons, parameterNames, ih]; rfl

theorem Datum.parameterNames_append (names : List String) {found : Datum} (rest : List Datum)
    (h : ∀ name, found ≠ .symbol name) :
    parameterNames (names.map .symbol ++ found :: rest) = .error (.parameterName found) := by
  induction names with
  | nil =>
    cases found with
    | symbol name => exact absurd rfl (h name)
    | _ => rfl
  | cons name names ih =>
    rw [List.map_cons, List.cons_append, parameterNames, ih]
    rfl

namespace Expr

variable {items forms : List Datum} {defect : Malformation}

theorem Shaped.mem (h : Shaped table items forms) : ∀ d ∈ forms, d ∈ items := by
  cases h with
  | special _ h => exact fun d hd ↦ List.mem_cons_of_mem _ (h.mem d hd)
  | call => exact fun d hd ↦ hd

theorem Shaped.not_illShaped (h : Shaped table items forms) : ¬IllShaped table items defect := by
  intro h'
  cases h with
  | special hrole h =>
    cases h' with
    | special hrole' h' =>
      cases hrole.unique hrole'
      exact h.not_refuses h'
  | call hrole =>
    cases h' with
    | special hrole' h' =>
      cases hrole.unique hrole'
      cases h'

theorem shaped_or_illShaped (table : OperatorTable) (items : List Datum) :
    (∃ forms, Shaped table items forms) ∨ ∃ defect, IllShaped table items defect := by
  cases items with
  | nil => exact .inr ⟨_, .empty⟩
  | cons head parts =>
    obtain ⟨role, hrole⟩ := Datum.exists_hasRole table head
    by_cases hordinary : role = .ordinary
    · exact .inl ⟨_, .call (hordinary ▸ hrole) parts⟩
    · rcases Head.admits_or_refuses hordinary parts with ⟨forms, h⟩ | ⟨defect, h⟩
      · exact .inl ⟨forms, .special hrole h⟩
      · exact .inr ⟨defect, .special hrole h⟩

/-! ## Recognising one list -/

/-- An ill-shaped list is refused before anything inside it is looked at. -/
theorem ofItems_of_illShaped (h : IllShaped table items defect) :
    ofItems table items = .error defect := by
  cases h with
  | empty => rfl
  | special hrole h =>
    obtain ⟨name, rfl, hclass⟩ := hrole.exists_name (by rintro rfl; cases h)
    rw [ofItems.eq_def]
    simp only [hclass]
    cases h with
    | operandCount op h =>
      dsimp only
      split
      · exact absurd rfl h
      · rfl
    | definitionCount h =>
      dsimp only
      split
      · exact absurd rfl h
      · exact absurd rfl h
      · rfl
    | @definitionName found value h =>
      cases found with
      | symbol name => exact absurd rfl (h name)
      | _ => rfl
    | conditionalCount h =>
      dsimp only
      split
      · exact absurd rfl h
      · rfl
    | lambdaCount h =>
      dsimp only
      split
      · exact absurd rfl h
      · exact absurd rfl h
      · rfl
    | @parameterList found body h =>
      cases found with
      | list params => exact absurd rfl (h params)
      | _ => rfl
    | parameterName names rest body h =>
      dsimp only
      rw [Datum.parameterNames_append names rest h]
      rfl

theorem ofItems_operands {op : Operator} (h : op ∈ table) (left right : Datum) :
    ofItems table [.symbol op.symbol, left, right] = do
      let l ← ofDatum table left
      let r ← ofDatum table right
      return .binary op l r := by
  rw [ofItems.eq_def]
  simp only [OperatorTable.classify_symbol h]

theorem ofItems_definition (name : String) (value : Datum) :
    ofItems table [.symbol Keyword.define.word, .symbol name, value] = do
      let v ← ofDatum table value
      return .definition name v := by
  rw [ofItems.eq_def]
  simp only [OperatorTable.classify_word]

theorem ofItems_conditional (test yes no : Datum) :
    ofItems table [.symbol Keyword.conditional.word, test, yes, no] = do
      let t ← ofDatum table test
      let y ← ofDatum table yes
      let n ← ofDatum table no
      return .conditional t y n := by
  rw [ofItems.eq_def]
  simp only [OperatorTable.classify_word]

theorem ofItems_lambda (params : List String) (body : Datum) :
    ofItems table [.symbol Keyword.lambda.word, .list (params.map .symbol), body] = do
      let b ← ofDatum table body
      return .lambda params b := by
  rw [ofItems.eq_def]
  simp only [OperatorTable.classify_word, Datum.parameterNames_map]
  rfl

theorem ofItems_call {head : Datum} (h : head.HasRole table .ordinary) (args : List Datum) :
    ofItems table (head :: args) = do
      let c ← ofDatum table head
      let as ← ofAll table args
      return .call c as := by
  refine ofItems_cons fun name hname ↦ ?_
  rw [hname] at h
  exact Datum.hasRole_symbol_iff.mp h

/-! ## Which lists are met -/

theorem combinationsIn_of_ne {head : Datum} (h : head ≠ .symbol Keyword.lambda.word)
    (parts : List Datum) :
    Datum.combinationsIn (head :: parts) = Datum.combinationsAll (head :: parts) := by
  cases parts with
  | nil => exact (List.append_nil _).symm
  | cons second rest => rw [Datum.combinationsIn, if_neg h, Datum.combinationsAll,
      Datum.combinationsAll]

/-- Inside a well-shaped list, the lists of its inner forms are met and no others. -/
theorem combinationsIn_of_shaped (h : Shaped table items forms) :
    Datum.combinationsIn items = Datum.combinationsAll forms := by
  cases h with
  | call hrole args =>
    refine combinationsIn_of_ne (fun hhead ↦ ?_) args
    rw [hhead] at hrole
    cases hrole.unique (.keyword .lambda)
  | special hrole h =>
    cases h with
    | operands op =>
      cases hrole
      refine combinationsIn_of_ne (fun hhead ↦ ?_) _
      exact OperatorTable.symbol_ne_word op .lambda (Datum.symbol.inj hhead)
    | definition =>
      cases hrole
      exact combinationsIn_of_ne (by decide) _
    | conditional =>
      cases hrole
      exact combinationsIn_of_ne (by decide) _
    | lambda =>
      cases hrole
      rfl

theorem mem_combinationsAll {ds : List Datum} {items : List Datum} :
    items ∈ Datum.combinationsAll ds ↔ ∃ d ∈ ds, items ∈ d.combinations := by
  induction ds with
  | nil => exact ⟨nofun, nofun⟩
  | cons d ds ih => rw [Datum.combinationsAll, List.mem_append, ih, List.exists_mem_cons_iff]

/-- The core syntax asks of every list that is met for the right shape, and for nothing else. -/
theorem coreForm_iff {d : Datum} :
    CoreForm table d ↔ ∀ items ∈ d.combinations, ∃ forms, Shaped table items forms := by
  induction d with
  | list items ih =>
    rw [Datum.combinations, List.forall_mem_cons]
    constructor
    · rintro (h | @⟨_, forms, h, hforms⟩)
      · exact absurd rfl (h items)
      · refine ⟨⟨forms, h⟩, fun items' hmem ↦ ?_⟩
        rw [combinationsIn_of_shaped h, mem_combinationsAll] at hmem
        obtain ⟨d, hd, hmem⟩ := hmem
        exact (ih d (h.mem d hd)).mp (hforms d hd) items' hmem
    · rintro ⟨⟨forms, h⟩, hinner⟩
      refine .list h fun d hd ↦ (ih d (h.mem d hd)).mpr fun items' hmem ↦ hinner items' ?_
      rw [combinationsIn_of_shaped h, mem_combinationsAll]
      exact ⟨d, hd, hmem⟩
  | _ => exact ⟨fun _ ↦ List.forall_mem_nil _, fun _ ↦ .atom fun _ ↦ nofun⟩

/-! ## The first defect decides -/

theorem FirstDefect.unique {lists : List (List Datum)} {defect' : Malformation}
    (h : FirstDefect table lists defect) (h' : FirstDefect table lists defect') :
    defect = defect' := by
  induction h with
  | here h =>
    cases h' with
    | here h' =>
      have heq := (ofItems_of_illShaped h).symm.trans (ofItems_of_illShaped h')
      exact Except.error.inj heq
    | later h' => exact absurd h h'.not_illShaped
  | later h _ ih =>
    cases h' with
    | here h' => exact absurd h' h.not_illShaped
    | later _ h' => exact ih h'

theorem FirstDefect.exists_illShaped {lists : List (List Datum)}
    (h : FirstDefect table lists defect) : ∃ items ∈ lists, IllShaped table items defect := by
  induction h with
  | here h => exact ⟨_, List.mem_cons_self, h⟩
  | later _ _ ih =>
    obtain ⟨items, hmem, hitems⟩ := ih
    exact ⟨items, List.mem_cons_of_mem _ hmem, hitems⟩

/-- A result settles lists: it is a success and they are all well-shaped, or it is the malformation
of the first one that is not. -/
def Settles (table : OperatorTable) {α : Type} (result : Except Malformation α)
    (lists : List (List Datum)) : Prop :=
  match result with
  | .ok _ => ∀ items ∈ lists, ∃ forms, Shaped table items forms
  | .error defect => FirstDefect table lists defect

section Settles

variable {α β : Type} {result : Except Malformation α} {lists lists' : List (List Datum)}

theorem settles_ok (table : OperatorTable) (a : α) : Settles table (.ok a) [] :=
  List.forall_mem_nil _

theorem Settles.cons (hitems : Shaped table items forms) (h : Settles table result lists) :
    Settles table result (items :: lists) := by
  cases result with
  | ok a => exact List.forall_mem_cons.mpr ⟨⟨forms, hitems⟩, h⟩
  | error defect => exact .later hitems h

theorem Settles.bind {f : α → Except Malformation β} (h : Settles table result lists)
    (hf : ∀ a, Settles table (f a) lists') : Settles table (result >>= f) (lists ++ lists') := by
  cases result with
  | ok a =>
    change ∀ items ∈ lists, ∃ forms, Shaped table items forms at h
    change Settles table (f a) (lists ++ lists')
    induction lists with
    | nil => exact hf a
    | cons items lists ih =>
      obtain ⟨⟨forms, hitems⟩, h⟩ := List.forall_mem_cons.mp h
      exact (ih h).cons hitems
  | error defect =>
    change FirstDefect table (lists ++ lists') defect
    induction h with
    | here h => exact .here h _
    | later h _ ih => exact .later h ih

end Settles

theorem settles_ofAll {ds : List Datum}
    (h : ∀ d ∈ ds, Settles table (ofDatum table d) d.combinations) :
    Settles table (ofAll table ds) (Datum.combinationsAll ds) := by
  induction ds with
  | nil => exact settles_ok table []
  | cons d ds ih =>
    obtain ⟨hd, hds⟩ := List.forall_mem_cons.mp h
    rw [ofAll, Datum.combinationsAll, ← List.append_nil (Datum.combinationsAll ds)]
    exact hd.bind fun e ↦ (ih hds).bind fun es ↦ settles_ok table (e :: es)

/-- Inside a well-shaped list, recognition goes through the inner forms one after another. -/
theorem settles_ofItems (h : Shaped table items forms)
    (ih : ∀ d ∈ forms, Settles table (ofDatum table d) d.combinations) :
    Settles table (ofItems table items) (Datum.combinationsAll forms) := by
  cases h with
  | call hrole args =>
    obtain ⟨hhead, hargs⟩ := List.forall_mem_cons.mp ih
    rw [ofItems_call hrole, Datum.combinationsAll, ← List.append_nil (Datum.combinationsAll args)]
    exact hhead.bind fun c ↦ (settles_ofAll hargs).bind fun as ↦ settles_ok table (Expr.call c as)
  | special hrole h =>
    cases h with
    | operands op left right =>
      obtain ⟨rfl, hop⟩ := hrole.of_operator
      rw [ofItems_operands hop]
      exact (ih left (by simp)).bind fun l ↦ (ih right (by simp)).bind fun r ↦
        settles_ok table (Expr.binary op l r)
    | definition name value =>
      cases hrole
      rw [ofItems_definition]
      exact (ih value (by simp)).bind fun v ↦ settles_ok table (Expr.definition name v)
    | conditional test yes no =>
      cases hrole
      rw [ofItems_conditional]
      exact (ih test (by simp)).bind fun t ↦ (ih yes (by simp)).bind fun y ↦
        (ih no (by simp)).bind fun n ↦ settles_ok table (Expr.conditional t y n)
    | lambda params body =>
      cases hrole
      rw [ofItems_lambda]
      exact (ih body (by simp)).bind fun b ↦ settles_ok table (Expr.lambda params b)

theorem settles_ofDatum (table : OperatorTable) (d : Datum) :
    Settles table (ofDatum table d) d.combinations := by
  induction d with
  | list items ih =>
    rw [ofDatum, Datum.combinations]
    rcases shaped_or_illShaped table items with ⟨forms, h⟩ | ⟨defect, h⟩
    · rw [combinationsIn_of_shaped h]
      exact (settles_ofItems h fun d hd ↦ ih d (h.mem d hd)).cons h
    · rw [ofItems_of_illShaped h]
      exact .here h _
  | _ => exact settles_ok table _

theorem exists_ofDatum_eq_ok_iff {d : Datum} :
    (∃ e, ofDatum table d = .ok e) ↔
      ∀ items ∈ d.combinations, ∃ forms, Shaped table items forms := by
  have hsettles := settles_ofDatum table d
  cases h : ofDatum table d with
  | ok e =>
    rw [h] at hsettles
    exact ⟨fun _ ↦ hsettles, fun _ ↦ ⟨e, rfl⟩⟩
  | error defect =>
    rw [h] at hsettles
    obtain ⟨items, hmem, hitems⟩ := FirstDefect.exists_illShaped hsettles
    refine ⟨nofun, fun hall ↦ ?_⟩
    obtain ⟨forms, hforms⟩ := hall items hmem
    exact absurd hitems hforms.not_illShaped

theorem ofDatum_eq_error_iff {d : Datum} :
    ofDatum table d = .error defect ↔ FirstDefect table d.combinations defect := by
  have hsettles := settles_ofDatum table d
  cases h : ofDatum table d with
  | ok e =>
    refine ⟨nofun, fun hfirst ↦ ?_⟩
    obtain ⟨items, hmem, hitems⟩ := hfirst.exists_illShaped
    obtain ⟨forms, hforms⟩ := exists_ofDatum_eq_ok_iff.mp ⟨e, h⟩ items hmem
    exact absurd hitems hforms.not_illShaped
  | error defect' =>
    rw [h] at hsettles
    constructor
    · intro heq
      cases heq
      exact hsettles
    · intro hfirst
      rw [FirstDefect.unique hsettles hfirst]

theorem exists_ofDatum_eq_error_iff {d : Datum} :
    (∃ defect, ofDatum table d = .error defect) ↔
      ∃ items ∈ d.combinations, ∃ defect, IllShaped table items defect := by
  constructor
  · rintro ⟨defect, h⟩
    obtain ⟨items, hmem, hitems⟩ := (ofDatum_eq_error_iff.mp h).exists_illShaped
    exact ⟨items, hmem, defect, hitems⟩
  · rintro ⟨items, hmem, defect, hitems⟩
    cases h : ofDatum table d with
    | error defect' => exact ⟨defect', rfl⟩
    | ok e =>
      obtain ⟨forms, hforms⟩ := exists_ofDatum_eq_ok_iff.mp ⟨e, h⟩ items hmem
      exact absurd hitems hforms.not_illShaped

/-- **The builder accepts exactly the core syntax.** A datum is built if and only if it is a core
form. Otherwise the fault is a malformation outside every form, and it is the one of the first
ill-shaped list among those that stand as forms, from outside in and from left to right. A quote is
taken as it is, whatever it holds, and so is a parameter list that holds names only, whatever these
mean as heads: neither adds anything to what is built. -/
theorem build_accepts_exactly_the_core_forms (table : OperatorTable) (root : FrameId) (d : Datum) :
    let built := (Session.build ⟨table, root⟩ d).mapError Fault.ofCause
    ((∃ e, built = .ok e) ↔ CoreForm table d) ∧
      (∀ fault, built = .error fault ↔
        ∃ defect, fault = ⟨.malformed defect, []⟩ ∧ FirstDefect table d.combinations defect) ∧
      (∀ inner, ofDatum table (.quote inner) = .ok (.literal (.quote inner))) ∧
      ∀ (params : List String) (body : Datum),
        ofDatum table (.list [.symbol Keyword.lambda.word, .list (params.map .symbol), body]) =
          (ofDatum table body).map (.lambda params) := by
  intro built
  have hbuilt : built = (ofDatum table d).mapError fun defect ↦ ⟨.malformed defect, []⟩ := by
    change ((ofDatum table d).mapError Cause.malformed).mapError Fault.ofCause = _
    cases ofDatum table d <;> rfl
  refine ⟨?_, fun fault ↦ ?_, fun inner ↦ rfl, fun params body ↦ ofItems_lambda params body⟩
  · simp only [hbuilt, mapError_eq_ok_iff]
    rw [exists_ofDatum_eq_ok_iff, coreForm_iff]
  · simp only [hbuilt, mapError_eq_error_iff, ofDatum_eq_error_iff]
    exact exists_congr fun defect ↦ by rw [and_comm, eq_comm]

/-- In `(f '(define) (lambda (if) (define ())) ())` the second definition is the first ill-shaped
list: it is outside of one empty list and to the left of the other, and nothing in the quote or in
the parameter list counts. -/
example :
    let d := Datum.list [.symbol "f", .quote (.list [.symbol "define"]),
      .list [.symbol "lambda", .list [.symbol "if"], .list [.symbol "define", .list []]], .list []]
    d.combinations.length = 5 ∧ ofDatum .full d = .error (.definitionCount 1) := by
  decide

end Expr

end LexicalLisp
