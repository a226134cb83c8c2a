/-!
# Operators, keywords and heads

What a list means is decided by the symbol at its head: an operator of the table in force, a
keyword, or neither. The table comes first, so a table could in principle take a keyword's place;
with the seven operators of the language the two kinds of symbol are disjoint, and the order shows
only in how a head is classified.

A table is a set of operators. It is kept as a sublist of `Operator.all`, which lists all of them
by the bytes of their symbols, so that equal sets are equal tables and the listing of a table is
sorted without sorting.
-/

namespace LexicalLisp

section Words

variable {α : Type} {word : α → String} {l : List α} {a : α} {name : String}

private theorem find?_word_eq_some_iff (hword : ∀ a b, word a = word b → a = b) :
    l.find? (fun a ↦ word a == name) = some a ↔ a ∈ l ∧ word a = name := by
  constructor
  · intro h
    have hfound := List.find?_some h
    exact ⟨List.mem_of_find?_eq_some h, beq_iff_eq.mp hfound⟩
  · rintro ⟨ha, rfl⟩
    have hsome : (l.find? fun b ↦ word b == word a).isSome = true :=
      List.find?_isSome.mpr ⟨a, ha, beq_self_eq_true (word a)⟩
    obtain ⟨b, hb⟩ := Option.isSome_iff_exists.mp hsome
    have hfound := List.find?_some hb
    rw [hb, hword b a (beq_iff_eq.mp hfound)]

private theorem find?_word_eq_none_iff :
    l.find? (fun a ↦ word a == name) = none ↔ ∀ a ∈ l, word a ≠ name := by
  simp only [List.find?_eq_none, beq_iff_eq, ne_eq]

end Words

/-- The operations on two integers. -/
inductive Operator where
  | mul | add | sub | div | less | equal | greater
deriving DecidableEq

namespace Operator

/-- The symbol of an operator. -/
def symbol : Operator → String
  | mul => "*"
  | add => "+"
  | sub => "-"
  | div => "/"
  | less => "<"
  | equal => "="
  | greater => ">"

/-- The operators in the order of their symbols. -/
def all : List Operator := [mul, add, sub, div, less, equal, greater]

theorem mem_all (op : Operator) : op ∈ all := by
  cases op <;> decide

theorem symbol_inj {op op' : Operator} : op.symbol = op'.symbol → op = op' := by
  cases op <;> cases op' <;> decide

/-- The operator with a symbol. -/
def ofSymbol? (name : String) : Option Operator := all.find? fun op ↦ op.symbol == name

theorem ofSymbol?_eq_some_iff {name : String} {op : Operator} :
    ofSymbol? name = some op ↔ op.symbol = name :=
  (find?_word_eq_some_iff fun _ _ ↦ symbol_inj).trans (and_iff_right (mem_all op))

end Operator

/-- The operators that a program may use. -/
structure OperatorTable where
  /-- The operators, in the order of their symbols. -/
  operators : List Operator
  /-- The listing is that of a set. -/
  sublist_all : operators.Sublist Operator.all
deriving DecidableEq

namespace OperatorTable

/-- The table of just the given operators. -/
def only (ops : List Operator) : OperatorTable where
  operators := Operator.all.filter (· ∈ ops)
  sublist_all := List.filter_sublist

/-- The table of all operators. -/
def full : OperatorTable where
  operators := Operator.all
  sublist_all := List.Sublist.refl _

instance : Membership Operator OperatorTable := ⟨fun table op ↦ op ∈ table.operators⟩

instance (op : Operator) (table : OperatorTable) : Decidable (op ∈ table) :=
  inferInstanceAs (Decidable (op ∈ table.operators))

@[simp] theorem mem_only {op : Operator} {ops : List Operator} : op ∈ only ops ↔ op ∈ ops := by
  change op ∈ Operator.all.filter (· ∈ ops) ↔ op ∈ ops
  simp [Operator.mem_all]

/-- The operator of the table with a symbol. -/
def get? (table : OperatorTable) (name : String) : Option Operator :=
  table.operators.find? fun op ↦ op.symbol == name

theorem get?_eq_some_iff {table : OperatorTable} {name : String} {op : Operator} :
    table.get? name = some op ↔ op ∈ table ∧ op.symbol = name :=
  find?_word_eq_some_iff fun _ _ ↦ Operator.symbol_inj

theorem get?_eq_none_iff {table : OperatorTable} {name : String} :
    table.get? name = none ↔ ∀ op ∈ table, op.symbol ≠ name :=
  find?_word_eq_none_iff

/-- The symbols of the table, sorted. -/
def symbols (table : OperatorTable) : List String := table.operators.map Operator.symbol

end OperatorTable

/-- The words that begin a special form. -/
inductive Keyword where
  | define | conditional | lambda
deriving DecidableEq

namespace Keyword

/-- The word itself. -/
def word : Keyword → String
  | define => "define"
  | conditional => "if"
  | lambda => "lambda"

/-- The keywords in alphabetical order. -/
def all : List Keyword := [define, conditional, lambda]

theorem mem_all (k : Keyword) : k ∈ all := by
  cases k <;> decide

theorem word_inj {k k' : Keyword} : k.word = k'.word → k = k' := by
  cases k <;> cases k' <;> decide

/-- The keyword with a spelling. -/
def ofWord? (name : String) : Option Keyword := all.find? fun k ↦ k.word == name

theorem ofWord?_eq_some_iff {name : String} {k : Keyword} :
    ofWord? name = some k ↔ k.word = name :=
  (find?_word_eq_some_iff fun _ _ ↦ word_inj).trans (and_iff_right (mem_all k))

theorem ofWord?_eq_none_iff {name : String} :
    ofWord? name = none ↔ ∀ k : Keyword, k.word ≠ name :=
  find?_word_eq_none_iff.trans ⟨fun h k ↦ h k (mem_all k), fun h k _ ↦ h k⟩

end Keyword

/-- The role of a symbol at the head of a list. -/
inductive Head where
  /-- An operator of the table. -/
  | operator (op : Operator)
  /-- A keyword. -/
  | keyword (k : Keyword)
  /-- Any other symbol: the list is a call. -/
  | ordinary
deriving DecidableEq

namespace OperatorTable

/-- Classifies the symbol at the head of a list. -/
def classify (table : OperatorTable) (name : String) : Head :=
  match table.get? name with
  | some op => .operator op
  | none =>
    match Keyword.ofWord? name with
    | some k => .keyword k
    | none => .ordinary

variable {table : OperatorTable} {name : String}

theorem symbol_ne_word (op : Operator) (k : Keyword) : op.symbol ≠ k.word := by
  cases op <;> cases k <;> decide

theorem classify_symbol {op : Operator} (h : op ∈ table) :
    table.classify op.symbol = .operator op := by
  rw [classify, get?_eq_some_iff.mpr ⟨h, rfl⟩]

theorem classify_word (k : Keyword) : table.classify k.word = .keyword k := by
  rw [classify, get?_eq_none_iff.mpr fun op _ ↦ symbol_ne_word op k,
    Keyword.ofWord?_eq_some_iff.mpr rfl]

theorem classify_ordinary (hop : ∀ op ∈ table, op.symbol ≠ name)
    (hword : ∀ k : Keyword, k.word ≠ name) : table.classify name = .ordinary := by
  rw [classify, get?_eq_none_iff.mpr hop, Keyword.ofWord?_eq_none_iff.mpr hword]

/-- A symbol has one of the three roles, by whether it is that of an operator of the table, or else
a keyword. -/
theorem classify_cases (table : OperatorTable) (name : String) :
    (∃ op ∈ table, op.symbol = name ∧ table.classify name = .operator op) ∨
    (∃ k : Keyword, k.word = name ∧ table.classify name = .keyword k) ∨
    ((∀ op ∈ table, op.symbol ≠ name) ∧ (∀ k : Keyword, k.word ≠ name) ∧
      table.classify name = .ordinary) := by
  by_cases hop : ∃ op ∈ table, op.symbol = name
  · obtain ⟨op, hmem, rfl⟩ := hop
    exact .inl ⟨op, hmem, rfl, classify_symbol hmem⟩
  by_cases hword : ∃ k : Keyword, k.word = name
  · obtain ⟨k, rfl⟩ := hword
    exact .inr (.inl ⟨k, rfl, classify_word k⟩)
  have hop' : ∀ op ∈ table, op.symbol ≠ name := fun op hmem heq ↦ hop ⟨op, hmem, heq⟩
  have hword' : ∀ k : Keyword, k.word ≠ name := fun k heq ↦ hword ⟨k, heq⟩
  exact .inr (.inr ⟨hop', hword', classify_ordinary hop' hword'⟩)

theorem classify_eq_operator_iff {op : Operator} :
    table.classify name = .operator op ↔ op ∈ table ∧ op.symbol = name := by
  constructor
  · intro h
    obtain ⟨op', hmem, hsymbol, hrole⟩ | ⟨k, -, hrole⟩ | ⟨-, -, hrole⟩ := table.classify_cases name
    · cases hrole.symm.trans h
      exact ⟨hmem, hsymbol⟩
    · cases hrole.symm.trans h
    · cases hrole.symm.trans h
  · rintro ⟨h, rfl⟩
    exact classify_symbol h

theorem classify_eq_keyword_iff {k : Keyword} :
    table.classify name = .keyword k ↔ k.word = name := by
  constructor
  · intro h
    obtain ⟨op, -, -, hrole⟩ | ⟨k', hword, hrole⟩ | ⟨-, -, hrole⟩ := table.classify_cases name
    · cases hrole.symm.trans h
    · cases hrole.symm.trans h
      exact hword
    · cases hrole.symm.trans h
  · rintro rfl
    exact classify_word k

end OperatorTable

end LexicalLisp
