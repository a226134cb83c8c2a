import LexicalLisp.Proofs.Console.LineByLine
import LexicalLisp.Proofs.Outlines.Printing

/-!
# Columns of outlines

An outline at a deeper column is the same outline moved to the right. On lines with their columns
this is plain (`Outline.linesAll_add`), since no line says where it stands. For the text it takes
one more thing: that the text can be cut into its lines again, which is so as long as no name holds
a line feed (`Outline.linesOf_render`).

The lines of data, expressions and values are *plain* (`Outline.Plain`): unbroken, and beginning
with something else than a space, so that the spaces in front of them are their columns and nothing
else. So the texts of all three shift uniformly (`pretty_shifts_uniformly`).
-/

namespace LexicalLisp

open Console

/-! ## Lines of a text -/

namespace Console

theorem linesFrom_append {line : List Char} (h : '\n' ∉ line) (current rest : List Char) :
    linesFrom current (line ++ '\n' :: rest) =
      (current.reverse ++ line) :: linesFrom [] rest := by
  induction line generalizing current with
  | nil => rw [List.nil_append, linesFrom, if_pos rfl, List.append_nil]
  | cons c line ih =>
    rw [List.mem_cons, not_or] at h
    obtain ⟨hc, hline⟩ := h
    rw [List.cons_append, linesFrom, if_neg (Ne.symm hc), ih hline, List.reverse_cons,
      List.append_assoc, List.singleton_append]

theorem linesOf_textOfLines {lines : List (List Char)} (h : ∀ line ∈ lines, '\n' ∉ line) :
    linesOf (textOfLines lines) = lines := by
  induction lines with
  | nil => rfl
  | cons line lines ih =>
    obtain ⟨hline, hlines⟩ := List.forall_mem_cons.mp h
    rw [textOfLines_cons, linesOf, linesFrom_append hline, ← linesOf, ih hlines]
    rfl

end Console

namespace Outline

/-! ## Lines of an outline -/

mutual

theorem lines_add (column k : Nat) :
    ∀ o : Outline, lines (column + k) o = (lines column o).map fun l ↦ (l.1 + k, l.2)
  | .node line below => by
    rw [lines, lines, List.map_cons, Nat.add_right_comm, linesAll_add]

/-- Outlines at a deeper column have the same lines, moved to the right. -/
theorem linesAll_add (column k : Nat) :
    ∀ os : List Outline, linesAll (column + k) os = (linesAll column os).map fun l ↦ (l.1 + k, l.2)
  | [] => rfl
  | o :: rest => by rw [linesAll, linesAll, List.map_append, lines_add, linesAll_add]

end

theorem le_of_mem_linesAll {column : Nat} {os : List Outline} {l : Nat × String}
    (h : l ∈ linesAll column os) : column ≤ l.1 := by
  rw [← Nat.zero_add column, linesAll_add] at h
  obtain ⟨l', -, rfl⟩ := List.mem_map.mp h
  exact Nat.le_add_left column l'.1

section AllLines

variable {p : String → Prop} {os os' : List Outline}

/-- All lines of outlines have the property, whatever the column. -/
def AllLines (p : String → Prop) (os : List Outline) : Prop :=
  ∀ column, ∀ l ∈ linesAll column os, p l.2

theorem allLines_nil (p : String → Prop) : AllLines p [] := fun _ ↦ List.forall_mem_nil _

theorem AllLines.append (h : AllLines p os) (h' : AllLines p os') : AllLines p (os ++ os') := by
  intro column
  rw [linesAll_append, List.forall_mem_append]
  exact ⟨h column, h' column⟩

theorem AllLines.node {line : String} (hline : p line) (h : AllLines p os) (h' : AllLines p os') :
    AllLines p (.node line os :: os') := by
  intro column
  rw [linesAll, lines, List.forall_mem_append, List.forall_mem_cons]
  exact ⟨⟨hline, h _⟩, h' column⟩

theorem AllLines.flatMap {α : Type} {f : α → List Outline} {as : List α}
    (h : ∀ a ∈ as, AllLines p (f a)) : AllLines p (as.flatMap f) := by
  induction as with
  | nil => exact allLines_nil p
  | cons a as ih =>
    obtain ⟨ha, has⟩ := List.forall_mem_cons.mp h
    exact ha.append (ih has)

theorem AllLines.single {line : String} (hline : p line) (h : AllLines p os) :
    AllLines p [.node line os] :=
  h.node hline (allLines_nil p)

end AllLines

/-! ## Plain lines -/

/-- A line that can be told from the spaces in front of it and from the lines around it. -/
structure Plain (line : String) : Prop where
  /-- It begins with something else than a space. -/
  begins : ∃ c rest, line.toList = c :: rest ∧ c ≠ ' '
  /-- It does not end early. -/
  unbroken : '\n' ∉ line.toList

theorem plain_iff {line : String} :
    Plain line ↔ line.toList.head?.any (· != ' ') = true ∧ '\n' ∉ line.toList := by
  constructor
  · rintro ⟨⟨c, rest, hline, hc⟩, h⟩
    refine ⟨?_, h⟩
    rw [hline, List.head?_cons, Option.any_some]
    exact bne_iff_ne.mpr hc
  · rintro ⟨hhead, h⟩
    obtain ⟨c, hc, hne⟩ := (Option.any_eq_true _ _).mp hhead
    obtain ⟨rest, hline⟩ := List.head?_eq_some_iff.mp hc
    exact ⟨⟨c, rest, hline, bne_iff_ne.mp hne⟩, h⟩

instance (line : String) : Decidable (Plain line) := decidable_of_iff _ plain_iff.symm

theorem Plain.append {label rest : String} (h : Plain label) (hrest : '\n' ∉ rest.toList) :
    Plain (label ++ rest) := by
  obtain ⟨c, tail, htail, hc⟩ := h.begins
  refine ⟨⟨c, tail ++ rest.toList, ?_, hc⟩, ?_⟩
  · rw [String.toList_append, htail, List.cons_append]
  · rw [String.toList_append, List.mem_append, not_or]
    exact ⟨h.unbroken, hrest⟩

/-- A line with the spaces in front of it. -/
def padded (l : Nat × String) : List Char := List.replicate l.1 ' ' ++ l.2.toList

theorem render_eq (column : Nat) (os : List Outline) :
    (render column os).toList = textOfLines ((linesAll column os).map padded) := by
  rw [render, String.toList_ofList, textOfLines, List.flatMap_map]
  rfl

/-- The text of outlines with plain lines is cut into just these lines. -/
theorem linesOf_render {os : List Outline} (h : AllLines Plain os) (column : Nat) :
    linesOf (render column os).toList = (linesAll column os).map padded := by
  rw [render_eq]
  refine linesOf_textOfLines fun line hline ↦ ?_
  obtain ⟨l, hl, rfl⟩ := List.mem_map.mp hline
  rw [padded, List.mem_append, List.mem_replicate, not_or]
  exact ⟨fun hspace ↦ absurd hspace.2 (by decide), (h column l hl).unbroken⟩

end Outline

/-- The texts of an outline at all columns are the same lines, each with the spaces of the column in
front of it: further spaces come in front of every line, every line has those of the column, and the
text ends with the end of a line. -/
structure ShiftsUniformly (pretty : Nat → String) : Prop where
  /-- At a deeper column, every line has the difference in spaces in front of it. -/
  shift : ∀ column k, (pretty (column + k)).toList =
    textOfLines ((linesOf (pretty column).toList).map (List.replicate k ' ' ++ ·))
  /-- Every line begins with the spaces of its column. -/
  indented : ∀ column, ∀ line ∈ linesOf (pretty column).toList,
    List.replicate column ' ' <+: line
  /-- The text ends with a line feed. -/
  ended : ∀ column, ∃ text, (pretty column).toList = text ++ ['\n']

namespace Outline

theorem padded_add (column k : Nat) (line : String) :
    padded (column + k, line) = List.replicate k ' ' ++ padded (column, line) := by
  rw [padded, padded, ← List.append_assoc, List.replicate_append_replicate, Nat.add_comm]

theorem exists_textOfLines_eq {lines : List (List Char)} (h : lines ≠ []) :
    ∃ text, textOfLines lines = text ++ ['\n'] := by
  obtain ⟨front, last, rfl⟩ := (List.eq_nil_or_concat lines).resolve_left h
  rw [textOfLines, List.concat_eq_append, List.flatMap_append, List.flatMap_singleton,
    ← List.append_assoc]
  exact ⟨_, rfl⟩

theorem shiftsUniformly_render {os : List Outline} (h : AllLines Plain os) (hne : os ≠ []) :
    ShiftsUniformly fun column ↦ render column os where
  shift column k := by
    rw [linesOf_render h, render_eq, linesAll_add, List.map_map, List.map_map]
    refine congrArg textOfLines (List.map_congr_left fun l _ ↦ ?_)
    exact padded_add l.1 k l.2
  indented column line hline := by
    rw [linesOf_render h] at hline
    obtain ⟨l, hl, rfl⟩ := List.mem_map.mp hline
    obtain ⟨k, hk⟩ := Nat.exists_eq_add_of_le (le_of_mem_linesAll hl)
    rw [padded, hk, ← List.replicate_append_replicate, List.append_assoc]
    exact List.prefix_append _ _
  ended column := by
    rw [render_eq]
    refine exists_textOfLines_eq fun hnil ↦ ?_
    obtain ⟨⟨line, below⟩, rest, rfl⟩ := List.exists_cons_of_ne_nil hne
    rw [linesAll, lines] at hnil
    cases hnil

end Outline

/-! ## Names -/

namespace Datum

mutual

/-- The names in a datum. -/
def names : Datum → List String
  | .list items => namesAll items
  | .symbol name => [name]
  | .integer _ => []
  | .bool _ => []
  | .quote inner => names inner

/-- The names in several data. -/
def namesAll : List Datum → List String
  | [] => []
  | d :: rest => names d ++ namesAll rest

end

theorem namesAll_eq_flatMap (ds : List Datum) : namesAll ds = ds.flatMap names := by
  induction ds with
  | nil => rfl
  | cons d ds ih => rw [namesAll, List.flatMap_cons, ih]

end Datum

namespace Expr

mutual

/-- The names in an expression: those in its literals, those that it refers to, those that it binds,
and its parameters. -/
def names : Expr → List String
  | .literal datum => datum.names
  | .symbol name => [name]
  | .definition name value => name :: names value
  | .conditional test yes no => names test ++ (names yes ++ names no)
  | .binary _ left right => names left ++ names right
  | .lambda params body => params ++ names body
  | .call callee args => names callee ++ namesAll args

/-- The names in several expressions. -/
def namesAll : List Expr → List String
  | [] => []
  | e :: rest => names e ++ namesAll rest

end

theorem namesAll_eq_flatMap (es : List Expr) : namesAll es = es.flatMap names := by
  induction es with
  | nil => rfl
  | cons e es ih => rw [namesAll, List.flatMap_cons, ih]

end Expr

/-- The names in a value: those in a quoted datum, and the parameters of a closure and the names in
its body. -/
def Value.names : Value → List String
  | .integer _ => []
  | .bool _ => []
  | .quoted datum => datum.names
  | .closure c => c.lambda.params ++ c.lambda.body.names

/-! ## Lines without line feeds -/

theorem Fixnum.eq_or_isDigit_of_mem_chars {value : Fixnum} {c : Char} (h : c ∈ value.chars) :
    c = '-' ∨ c.isDigit = true := by
  have hdigit : ∀ n, c ∈ Nat.toDigits 10 n → c.isDigit = true :=
    fun _ ↦ Nat.isDigit_of_mem_toDigits (by decide) (by decide)
  rw [chars] at h
  split at h
  · exact .inr (hdigit _ h)
  · rcases List.mem_cons.mp h with rfl | h
    · exact .inl rfl
    · exact .inr (hdigit _ h)

theorem Fixnum.newline_not_mem_render (value : Fixnum) : '\n' ∉ value.render.toList := by
  rw [render, String.toList_ofList]
  intro h
  rcases eq_or_isDigit_of_mem_chars h with h | h
  · exact absurd h (by decide)
  · exact absurd h (by decide)

theorem newline_not_mem_intercalate {names : List String}
    (h : ∀ name ∈ names, '\n' ∉ name.toList) : '\n' ∉ (" ".intercalate names).toList := by
  rw [String.toList_intercalate]
  induction names with
  | nil => decide
  | cons name names ih =>
    obtain ⟨hname, hnames⟩ := List.forall_mem_cons.mp h
    cases names with
    | nil => rwa [List.map_cons, List.map_nil, List.intercalate_singleton]
    | cons name' names =>
      rw [List.map_cons, List.map_cons, List.intercalate_cons_cons, List.mem_append,
        List.mem_append, not_or, not_or]
      exact ⟨⟨hname, by decide⟩, ih hnames⟩

section Plain

open Outline

theorem plain_operator (op : Operator) : Plain ("binop: " ++ op.symbol) := by
  cases op <;> decide

theorem plain_parameters {label : String} {params : List String} (hlabel : Plain (label ++ ": ("))
    (h : ∀ name ∈ params, '\n' ∉ name.toList) :
    Plain (label ++ ": (" ++ " ".intercalate params ++ ")") :=
  (hlabel.append (newline_not_mem_intercalate h)).append (by decide)

theorem Datum.plain_outline {d : Datum} (h : ∀ name ∈ d.names, '\n' ∉ name.toList) :
    AllLines Plain d.outline := by
  induction d with
  | list items ih =>
    rw [names, namesAll_eq_flatMap, List.forall_mem_flatMap] at h
    rw [outline, outlineAll_eq_flatMap]
    have hitems := AllLines.flatMap fun d hd ↦ ih d hd (h d hd)
    exact .node (by decide) hitems (.single (by decide) (allLines_nil _))
  | symbol name =>
    have hlabel : Plain "symbol: " := by decide
    exact .single (hlabel.append (h name (List.mem_singleton_self name))) (allLines_nil _)
  | integer value =>
    have hlabel : Plain "integer: " := by decide
    exact .single (hlabel.append value.newline_not_mem_render) (allLines_nil _)
  | bool value =>
    refine .single ?_ (allLines_nil _)
    cases value <;> decide
  | quote inner ih => exact .single (by decide) (ih h)

namespace Expr

theorem plain_outlineArguments {args : List Expr} (h : ∀ a ∈ args, AllLines Plain a.outline) :
    AllLines Plain (outlineArguments args) := by
  cases args with
  | nil => exact allLines_nil _
  | cons a args => exact .single (by decide) (.flatMap h)

theorem plain_outline {e : Expr} (h : ∀ name ∈ e.names, '\n' ∉ name.toList) :
    AllLines Plain e.outline := by
  induction e with
  | literal datum => exact Datum.plain_outline h
  | symbol name => exact @Datum.plain_outline (.symbol name) h
  | definition name value ih =>
    rw [names, List.forall_mem_cons] at h
    have hlabel : Plain "define: " := by decide
    exact .single (hlabel.append h.1) (ih h.2)
  | conditional test yes no ihTest ihYes ihNo =>
    rw [names, List.forall_mem_append, List.forall_mem_append] at h
    obtain ⟨htest, hyes, hno⟩ := h
    exact .node (by decide) (ihTest htest)
      (.node (by decide) (ihYes hyes) (.single (by decide) (ihNo hno)))
  | binary op left right ihLeft ihRight =>
    rw [names, List.forall_mem_append] at h
    exact .single (plain_operator op) ((ihLeft h.1).append (ihRight h.2))
  | lambda params body ih =>
    rw [names, List.forall_mem_append] at h
    exact .single (plain_parameters (by decide) h.1) (ih h.2)
  | call callee args ih ihs =>
    rw [names, namesAll_eq_flatMap, List.forall_mem_append, List.forall_mem_flatMap] at h
    obtain ⟨hcallee, hargs⟩ := h
    rw [outline_call]
    have harguments := plain_outlineArguments fun a ha ↦ ihs a ha (hargs a ha)
    exact .single (by decide) ((ih hcallee).append harguments)

end Expr

theorem Value.plain_outline {v : Value} (h : ∀ name ∈ v.names, '\n' ∉ name.toList) :
    AllLines Plain v.outline := by
  cases v with
  | integer value => exact @Datum.plain_outline (.integer value) h
  | bool value => exact @Datum.plain_outline (.bool value) h
  | quoted datum => exact .single (by decide) (Datum.plain_outline h)
  | closure c =>
    rw [names, List.forall_mem_append] at h
    exact .single (plain_parameters (by decide) h.1) (Expr.plain_outline h.2)

end Plain

/-! ## Uniform shifts -/

theorem Datum.outline_ne_nil (d : Datum) : d.outline ≠ [] := by
  cases d <;> exact List.cons_ne_nil _ _

theorem Expr.outline_ne_nil (e : Expr) : e.outline ≠ [] := by
  cases e with
  | literal datum => exact datum.outline_ne_nil
  | call callee args =>
    rw [outline_call]
    exact List.cons_ne_nil _ _
  | _ => exact List.cons_ne_nil _ _

theorem Value.outline_ne_nil (v : Value) : v.outline ≠ [] := by
  cases v <;> exact List.cons_ne_nil _ _

/-- **Indented text shifts uniformly.** As long as no name holds a line feed, the indented text of a
datum, of an expression and of a value at a deeper column is the text at the column itself with the
difference in spaces in front of every line. Every line begins with the spaces of its column, and
the text ends with a line feed. -/
theorem pretty_shifts_uniformly :
    (∀ d : Datum, (∀ name ∈ d.names, '\n' ∉ name.toList) → ShiftsUniformly d.pretty) ∧
      (∀ e : Expr, (∀ name ∈ e.names, '\n' ∉ name.toList) → ShiftsUniformly e.pretty) ∧
      ∀ v : Value, (∀ name ∈ v.names, '\n' ∉ name.toList) → ShiftsUniformly v.pretty :=
  ⟨fun d h ↦ Outline.shiftsUniformly_render (Datum.plain_outline h) d.outline_ne_nil,
    fun e h ↦ Outline.shiftsUniformly_render (Expr.plain_outline h) e.outline_ne_nil,
    fun v h ↦ Outline.shiftsUniformly_render (Value.plain_outline h) v.outline_ne_nil⟩

/-- A name may hold spaces, at its beginning too. -/
theorem pretty_shifts_uniformly_spaces_in_name :
    let d := Datum.quote (.list [.symbol "  a b", .integer ⟨-7, by decide, by decide⟩])
    let e := Expr.call (.symbol "f") [.conditional (.symbol "c") (.literal d) (.symbol "x")]
    let v := Value.closure ⟨⟨[0], ["c", " x"], e⟩, 0⟩
    ShiftsUniformly d.pretty ∧ ShiftsUniformly e.pretty ∧ ShiftsUniformly v.pretty ∧
      (e.pretty 4).toList =
        textOfLines ((linesOf (e.pretty 1).toList).map ([' ', ' ', ' '] ++ ·)) := by
  intro d e v
  obtain ⟨hdata, hexprs, hvalues⟩ := pretty_shifts_uniformly
  have hd := hdata d (by decide)
  have he := hexprs e (by decide)
  have hv := hvalues v (by decide)
  exact ⟨hd, he, hv, he.shift 1 3⟩

end LexicalLisp
