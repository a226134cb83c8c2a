import LexicalLisp.Proofs.Evaluation.Genuine
import LexicalLisp.Proofs.Outlines.Columns

/-!
# Indented text is lossless

Nothing is lost in an indented text: it is that of one datum only, and of one expression only
(`pretty_lossless`). The way back leads from the text to the tree in three steps.

* Plain lines are found in the text, each with its column (`Outline.map_unpad_render`), since the
  spaces at the beginning of a line are just those in front of it.
* Lines with their columns make up one sequence of outlines only (`Outline.eq_of_linesAll_append`):
  what is below a line are the lines behind it that are further to the right.
* An outline shows one tree only, and where it ends (`Outline.Legible`). This holds of all data
  (`Datum.legible`). Among expressions it holds of those whose literals have a value and whose names
  are names (`Expr.Proper.legible`): a symbol as a literal looks like a reference, and a parameter
  with a space in it looks like two. All expressions that were read and recognised are of this kind.

In the last two steps something unknown stands behind both of the sides that are compared, so that
the end of a part is found together with the part. Both are inductions on the left side only.
-/

namespace LexicalLisp

open Console

namespace Outline

/-! ## From the text to the lines -/

/-- A line without the spaces in front of it, and their number. -/
def unpad (line : List Char) : Nat × String :=
  ((line.takeWhile (· == ' ')).length, String.ofList (line.dropWhile (· == ' ')))

theorem unpad_padded {l : Nat × String} (h : Plain l.2) : unpad (padded l) = l := by
  obtain ⟨c, rest, hline, hc⟩ := h.begins
  have hstops : Text.Stops (· == ' ') l.2.toList := by
    rw [hline, Text.stops_cons]
    exact beq_eq_false_iff_ne.mpr hc
  have hspaces : ∀ c ∈ List.replicate l.1 ' ', (c == ' ') = true :=
    fun c hmem ↦ beq_iff_eq.mpr (List.eq_of_mem_replicate hmem)
  rw [unpad, padded, Text.takeWhile_append_of_stops hspaces hstops,
    Text.dropWhile_append_of_stops hspaces hstops, List.length_replicate, String.ofList_toList]

/-- Plain lines and their columns are found in the text again. -/
theorem map_unpad_render {os : List Outline} (h : AllLines Plain os) (column : Nat) :
    (linesOf (render column os).toList).map unpad = linesAll column os := by
  rw [linesOf_render h, List.map_map]
  have hid : ∀ l ∈ linesAll column os, (unpad ∘ padded) l = id l :=
    fun l hl ↦ unpad_padded (h column l hl)
  rw [List.map_congr_left hid, List.map_id]

/-! ## From the lines to the outlines -/

/-- Induction over outlines below one another: from what is below the first line and from the
outlines behind it. -/
theorem forest_induction {motive : List Outline → Prop} (nil : motive [])
    (node : ∀ line below os, motive below → motive os → motive (.node line below :: os))
    (os : List Outline) : motive os :=
  @Outline.rec_1 (fun o ↦ ∀ os, motive os → motive (o :: os)) motive
    (fun line below hbelow os hos ↦ node line below os hbelow hos) nil
    (fun _ os ho hos ↦ ho os hos) os

theorem linesAll_node (column : Nat) (line : String) (below os : List Outline) :
    linesAll column (.node line below :: os) =
      (column, line) :: (linesAll (column + step) below ++ linesAll column os) := by
  rw [linesAll, lines, List.cons_append]

/-- No line at the column or to the right of it comes first. -/
def EndsBefore (column : Nat) (ls : List (Nat × String)) : Prop := ∀ l ∈ ls.head?, l.1 < column

theorem not_endsBefore_cons (column : Nat) (line : String) (ls : List (Nat × String)) :
    ¬EndsBefore column ((column, line) :: ls) :=
  fun h ↦ Nat.lt_irrefl column (h (column, line) rfl)

theorem EndsBefore.linesAll_append {column : Nat} {ls : List (Nat × String)}
    (h : EndsBefore column ls) (os : List Outline) :
    EndsBefore (column + step) (linesAll column os ++ ls) := by
  have hstep : column < column + step := Nat.lt_add_of_pos_right (by decide)
  cases os with
  | nil => exact fun l hl ↦ Nat.lt_trans (h l hl) hstep
  | cons o os =>
    obtain ⟨line, below⟩ := o
    rw [linesAll_node]
    rintro _ ⟨⟩
    exact hstep

/-- Lines with their columns make up one sequence of outlines only. -/
theorem eq_of_linesAll_append {column : Nat} {os os' : List Outline} {ls ls' : List (Nat × String)}
    (hls : EndsBefore column ls) (hls' : EndsBefore column ls')
    (h : linesAll column os ++ ls = linesAll column os' ++ ls') : os = os' ∧ ls = ls' := by
  induction os using forest_induction generalizing column os' ls ls' with
  | nil =>
    rw [linesAll, List.nil_append] at h
    cases os' with
    | nil => exact ⟨rfl, h⟩
    | cons o' os' =>
      obtain ⟨line', below'⟩ := o'
      rw [h, linesAll_node, List.cons_append] at hls
      exact absurd hls (not_endsBefore_cons _ _ _)
  | node line below os ihBelow ih =>
    rw [linesAll_node, List.cons_append, List.append_assoc] at h
    cases os' with
    | nil =>
      rw [linesAll, List.nil_append] at h
      rw [← h] at hls'
      exact absurd hls' (not_endsBefore_cons _ _ _)
    | cons o' os' =>
      obtain ⟨line', below'⟩ := o'
      rw [linesAll_node, List.cons_append, List.append_assoc] at h
      obtain ⟨hline, hrest⟩ := List.cons.inj h
      obtain ⟨rfl, hbehind⟩ := ihBelow (hls.linesAll_append os) (hls'.linesAll_append os') hrest
      obtain ⟨rfl, rfl⟩ := ih hls hls' hbehind
      exact ⟨by rw [(Prod.mk.inj hline).2], rfl⟩

theorem eq_of_render_eq {column : Nat} {os os' : List Outline} (hos : AllLines Plain os)
    (hos' : AllLines Plain os') (h : render column os = render column os') : os = os' := by
  have hlines : linesAll column os = linesAll column os' := by
    rw [← map_unpad_render hos, ← map_unpad_render hos', h]
  have hends : EndsBefore column [] := fun _ hl ↦ absurd hl (Option.not_mem_none _)
  refine (eq_of_linesAll_append hends hends ?_).1
  rw [hlines]

/-! ## From the outlines to the trees -/

theorem node_append_inj {line line' : String} {below below' os os' : List Outline}
    (h : [node line below] ++ os = [node line' below'] ++ os') :
    line = line' ∧ below = below' ∧ os = os' := by
  obtain ⟨hnode, hos⟩ := List.cons.inj h
  obtain ⟨hline, hbelow⟩ := node.inj hnode
  exact ⟨hline, hbelow, hos⟩

/-- What the first line of an outline announces. -/
inductive Kind where
  | list | symbol | integer | bool | quote | definition | conditional | binary | lambda | call

/-- The kind that the first two characters of an outline announce. -/
def kind? : List Outline → Option Kind
  | [] => none
  | .node line _ :: _ =>
    match line.toList with
    | '(' :: _ => some .list
    | 's' :: _ => some .symbol
    | 'i' :: 'n' :: _ => some .integer
    | 'b' :: 'o' :: _ => some .bool
    | 'q' :: _ => some .quote
    | 'd' :: _ => some .definition
    | 'i' :: 'f' :: _ => some .conditional
    | 'b' :: 'i' :: _ => some .binary
    | 'l' :: _ => some .lambda
    | 'c' :: _ => some .call
    | _ => none

section Legible

variable {α : Type} {outline : α → List Outline} {p : α → Prop}

/-- The outline of a tree shows this one among all that have the property, and where it ends, in
front of any other outlines. -/
def Legible (outline : α → List Outline) (p : α → Prop) (a : α) : Prop :=
  ∀ a', p a' → ∀ os os', outline a ++ os = outline a' ++ os' → a = a' ∧ os = os'

theorem Legible.eq {a a' : α} (h : Legible outline p a) (ha' : p a')
    (heq : outline a = outline a') : a = a' :=
  (h a' ha' [] [] (by rw [heq])).1

/-- Only trees of the same kind have to be compared. -/
theorem Legible.of_kind {kind : α → Kind} (hkind : ∀ a os, kind? (outline a ++ os) = some (kind a))
    {a : α} (h : ∀ a', p a' → kind a = kind a' → ∀ os os', outline a ++ os = outline a' ++ os' →
      a = a' ∧ os = os') : Legible outline p a := by
  intro a' ha' os os' heq
  have hsome : some (kind a) = some (kind a') := by rw [← hkind a os, heq, hkind]
  exact h a' ha' (Option.some.inj hsome) os os' heq

/-- The outlines of legible trees below one another show how many there are, and each of them. -/
theorem eq_of_flatMap_eq {as as' : List α} (hne : ∀ a, outline a ≠ [])
    (h : ∀ a ∈ as, Legible outline p a) (h' : ∀ a ∈ as', p a)
    (heq : as.flatMap outline = as'.flatMap outline) : as = as' := by
  induction as generalizing as' with
  | nil =>
    cases as' with
    | nil => rfl
    | cons a' as' =>
      rw [List.flatMap_nil, List.flatMap_cons] at heq
      exact absurd (List.append_eq_nil_iff.mp heq.symm).1 (hne a')
  | cons a as ih =>
    obtain ⟨ha, has⟩ := List.forall_mem_cons.mp h
    cases as' with
    | nil =>
      rw [List.flatMap_nil, List.flatMap_cons] at heq
      exact absurd (List.append_eq_nil_iff.mp heq).1 (hne a)
    | cons a' as' =>
      obtain ⟨ha', has'⟩ := List.forall_mem_cons.mp h'
      rw [List.flatMap_cons, List.flatMap_cons] at heq
      obtain ⟨rfl, hrest⟩ := ha a' ha' _ _ heq
      rw [ih has has' hrest]

end Legible

end Outline

open Outline

/-! ### Data -/

namespace Fixnum

private theorem toDigits_inj {m n : Nat} (h : Nat.toDigits 10 m = Nat.toDigits 10 n) : m = n := by
  have hdigits : ∀ k, Nat.ofDigitChars 10 (Nat.toDigits 10 k) 0 = k :=
    fun _ ↦ Nat.ofDigitChars_toDigits (by decide) (by decide)
  rw [← hdigits m, h, hdigits]

private theorem toDigits_ne_minus_cons (m n : Nat) :
    Nat.toDigits 10 m ≠ '-' :: Nat.toDigits 10 n := by
  intro h
  have hmem : '-' ∈ Nat.toDigits 10 m := by
    rw [h]
    exact List.mem_cons_self
  have hdigit := Nat.isDigit_of_mem_toDigits (by decide) (by decide) hmem
  exact absurd hdigit (by decide)

theorem chars_inj {i j : Fixnum} (h : i.chars = j.chars) : i = j := by
  apply ext_val
  rw [chars, chars] at h
  split at h
  next m hm =>
    split at h
    next n hn => rw [hm, hn, toDigits_inj h]
    next n hn => exact absurd h (toDigits_ne_minus_cons _ _)
  next m hm =>
    split at h
    next n hn => exact absurd h.symm (toDigits_ne_minus_cons _ _)
    next n hn =>
      have hdigits := toDigits_inj (List.cons.inj h).2
      rw [hm, hn, Nat.succ.inj hdigits]

theorem render_inj {i j : Fixnum} (h : i.render = j.render) : i = j :=
  chars_inj (String.ofList_inj.mp h)

end Fixnum

namespace Datum

/-- The kind of a datum. -/
def kind : Datum → Kind
  | .list _ => .list
  | .symbol _ => .symbol
  | .integer _ => .integer
  | .bool _ => .bool
  | .quote _ => .quote

theorem kind?_outline (d : Datum) (os : List Outline) : kind? (d.outline ++ os) = some d.kind := by
  cases d with
  | bool value => cases value <;> rfl
  | _ => simp [outline, ofSymbol, ofInteger, leaf, kind?, kind]

private theorem boolLine_inj {b b' : Bool}
    (h : (if b then "boolean: true" else "boolean: false") =
      if b' then "boolean: true" else "boolean: false") : b = b' := by
  revert h
  cases b <;> cases b' <;> decide

/-- Every datum is legible among all data. -/
theorem legible (d : Datum) : Legible outline (fun _ ↦ True) d := by
  induction d with
  | list items ih =>
    refine .of_kind kind?_outline fun d' _ hkind os os' h ↦ ?_
    cases d' with
    | list items' =>
      obtain ⟨-, hitems, hclosed⟩ := node_append_inj h
      rw [outlineAll_eq_flatMap, outlineAll_eq_flatMap] at hitems
      rw [eq_of_flatMap_eq outline_ne_nil ih (fun _ _ ↦ trivial) hitems]
      exact ⟨rfl, (List.cons.inj hclosed).2⟩
    | _ => cases hkind
  | symbol name =>
    refine .of_kind kind?_outline fun d' _ hkind os os' h ↦ ?_
    cases d' with
    | symbol name' =>
      obtain ⟨hline, -, hos⟩ := node_append_inj h
      rw [(String.append_right_inj _).mp hline]
      exact ⟨rfl, hos⟩
    | _ => cases hkind
  | integer value =>
    refine .of_kind kind?_outline fun d' _ hkind os os' h ↦ ?_
    cases d' with
    | integer value' =>
      obtain ⟨hline, -, hos⟩ := node_append_inj h
      rw [Fixnum.render_inj ((String.append_right_inj _).mp hline)]
      exact ⟨rfl, hos⟩
    | _ => cases hkind
  | bool value =>
    refine .of_kind kind?_outline fun d' _ hkind os os' h ↦ ?_
    cases d' with
    | bool value' =>
      obtain ⟨hline, -, hos⟩ := node_append_inj h
      rw [boolLine_inj hline]
      exact ⟨rfl, hos⟩
    | _ => cases hkind
  | quote inner ih =>
    refine .of_kind kind?_outline fun d' _ hkind os os' h ↦ ?_
    cases d' with
    | quote inner' =>
      obtain ⟨-, hinner, hos⟩ := node_append_inj h
      rw [ih.eq trivial hinner]
      exact ⟨rfl, hos⟩
    | _ => cases hkind

end Datum

/-! ### Parameter lists -/

/-- The words of a text, with spaces between them. -/
def wordsOf (text : List Char) : List (List Char) := (text.splitOn ' ').filter (· != [])

theorem wordsOf_intercalate {words : List (List Char)}
    (h : ∀ word ∈ words, word ≠ [] ∧ ' ' ∉ word) :
    wordsOf ([' '].intercalate words) = words := by
  cases words with
  | nil => rfl
  | cons word words =>
    rw [wordsOf, List.splitOn_intercalate ' ' (fun word hword ↦ (h word hword).2)
      (List.cons_ne_nil _ _), List.filter_eq_self]
    exact fun word hword ↦ bne_iff_ne.mpr (h word hword).1

theorem Text.IsName.not_mem {word : List Char} (h : Text.IsName word) {c : Char}
    (hc : Text.isNameChar c = false) : c ∉ word :=
  fun hmem ↦ Bool.eq_false_iff.mp hc (h.2.1 c hmem)

/-- Names with spaces between them can be told apart. -/
theorem eq_of_intercalate_eq {names names' : List String}
    (h : ∀ name ∈ names, Text.IsName name.toList) (h' : ∀ name ∈ names', Text.IsName name.toList)
    (heq : " ".intercalate names = " ".intercalate names') : names = names' := by
  have hwords : ∀ {names : List String}, (∀ name ∈ names, Text.IsName name.toList) →
      wordsOf (" ".intercalate names).toList = names.map String.toList := by
    intro names h
    rw [String.toList_intercalate]
    refine wordsOf_intercalate fun word hword ↦ ?_
    obtain ⟨name, hname, rfl⟩ := List.mem_map.mp hword
    exact ⟨(h name hname).1, (h name hname).not_mem (by decide)⟩
  have hmap := hwords h
  rw [heq, hwords h'] at hmap
  exact ((List.map_inj_right fun _ _ ↦ String.toList_inj.mp).mp hmap).symm

/-! ### Expressions -/

namespace Expr

/-- The kind of an expression. -/
def kind : Expr → Kind
  | .literal datum => datum.kind
  | .symbol _ => .symbol
  | .definition _ _ => .definition
  | .conditional _ _ _ => .conditional
  | .binary _ _ _ => .binary
  | .lambda _ _ => .lambda
  | .call _ _ => .call

theorem kind?_outline (e : Expr) (os : List Outline) : kind? (e.outline ++ os) = some e.kind := by
  cases e with
  | literal datum => exact datum.kind?_outline os
  | call callee args =>
    rw [outline_call]
    rfl
  | _ => simp [outline, ofSymbol, ofParams, leaf, kind?, kind]

/-- All literals have a value, and all names are words that a name can be. -/
structure Proper (e : Expr) : Prop where
  genuine : e.Genuine fun _ ↦ True
  isName : ∀ name ∈ e.names, Text.IsName name.toList

-- a symbol as a literal and a parameter with a space in it look like parts of proper expressions
example : (literal (.symbol "x")).pretty 0 = (symbol "x").pretty 0 := rfl

example : (lambda ["x y"] (symbol "x")).pretty 0 = (lambda ["x", "y"] (symbol "x")).pretty 0 := rfl

namespace Proper

theorem value {name : String} {value : Expr} (h : (definition name value).Proper) :
    value.Proper where
  genuine := by
    cases h.genuine with
    | definition _ h => exact h
  isName name' hname' := h.isName name' (List.mem_cons_of_mem _ hname')

theorem parts {test yes no : Expr} (h : (conditional test yes no).Proper) :
    test.Proper ∧ yes.Proper ∧ no.Proper := by
  obtain ⟨htest, hyes, hno⟩ : _ ∧ _ ∧ _ := by
    simpa only [names, List.forall_mem_append] using h.isName
  cases h.genuine with
  | conditional h₁ h₂ h₃ => exact ⟨⟨h₁, htest⟩, ⟨h₂, hyes⟩, ⟨h₃, hno⟩⟩

theorem operands {op : Operator} {left right : Expr} (h : (binary op left right).Proper) :
    left.Proper ∧ right.Proper := by
  obtain ⟨hleft, hright⟩ := List.forall_mem_append.mp h.isName
  cases h.genuine with
  | binary _ h₁ h₂ => exact ⟨⟨h₁, hleft⟩, ⟨h₂, hright⟩⟩

theorem isName_of_mem_params {params : List String} {body : Expr}
    (h : (lambda params body).Proper) : ∀ name ∈ params, Text.IsName name.toList :=
  (List.forall_mem_append.mp h.isName).1

theorem body {params : List String} {body : Expr} (h : (lambda params body).Proper) :
    body.Proper where
  genuine := by
    cases h.genuine with
    | lambda _ h => exact h
  isName := (List.forall_mem_append.mp h.isName).2

theorem callee_args {callee : Expr} {args : List Expr} (h : (call callee args).Proper) :
    callee.Proper ∧ ∀ a ∈ args, a.Proper := by
  have hnames := h.isName
  rw [names, namesAll_eq_flatMap, List.forall_mem_append, List.forall_mem_flatMap] at hnames
  cases h.genuine with
  | call hcallee hargs =>
    exact ⟨⟨hcallee, hnames.1⟩, fun a ha ↦ ⟨hargs a ha, hnames.2 a ha⟩⟩

end Proper

theorem eq_of_outlineArguments_eq {args args' : List Expr}
    (h : ∀ a ∈ args, Legible outline Proper a) (h' : ∀ a ∈ args', Proper a)
    (heq : outlineArguments args = outlineArguments args') : args = args' := by
  cases args with
  | nil =>
    cases args' with
    | nil => rfl
    | cons a' args' => cases heq
  | cons a args =>
    cases args' with
    | nil => cases heq
    | cons a' args' =>
      obtain ⟨-, hbelow⟩ := Outline.node.inj (List.cons.inj heq).1
      exact eq_of_flatMap_eq outline_ne_nil h h' hbelow

theorem Proper.legible {e : Expr} (h : e.Proper) : Legible outline Proper e := by
  induction e with
  | literal datum =>
    refine .of_kind kind?_outline fun e' h' hkind os os' heq ↦ ?_
    cases e' with
    | literal datum' =>
      obtain ⟨rfl, hos⟩ := datum.legible datum' trivial os os' heq
      exact ⟨rfl, hos⟩
    | _ => cases h.genuine <;> cases hkind
  | symbol name =>
    refine .of_kind kind?_outline fun e' h' hkind os os' heq ↦ ?_
    cases h'.genuine with
    | symbol name' =>
      obtain ⟨hline, -, hos⟩ := node_append_inj heq
      rw [(String.append_right_inj _).mp hline]
      exact ⟨rfl, hos⟩
    | _ => cases hkind
  | definition name value ih =>
    refine .of_kind kind?_outline fun e' h' hkind os os' heq ↦ ?_
    cases h'.genuine with
    | definition name' _ =>
      obtain ⟨hline, hvalue, hos⟩ := node_append_inj heq
      rw [(String.append_right_inj _).mp hline, (ih h.value).eq h'.value hvalue]
      exact ⟨rfl, hos⟩
    | _ => cases hkind
  | conditional test yes no ihTest ihYes ihNo =>
    refine .of_kind kind?_outline fun e' h' hkind os os' heq ↦ ?_
    obtain ⟨htest, hyes, hno⟩ := h.parts
    cases h'.genuine with
    | conditional _ _ _ =>
      obtain ⟨htest', hyes', hno'⟩ := h'.parts
      obtain ⟨-, htests, hthen⟩ := node_append_inj heq
      obtain ⟨-, hyess, helse⟩ := node_append_inj hthen
      obtain ⟨-, hnos, hos⟩ := node_append_inj helse
      rw [(ihTest htest).eq htest' htests, (ihYes hyes).eq hyes' hyess, (ihNo hno).eq hno' hnos]
      exact ⟨rfl, hos⟩
    | _ => cases hkind
  | binary op left right ihLeft ihRight =>
    refine .of_kind kind?_outline fun e' h' hkind os os' heq ↦ ?_
    obtain ⟨hleft, hright⟩ := h.operands
    cases h'.genuine with
    | binary op' _ _ =>
      obtain ⟨hleft', hright'⟩ := h'.operands
      obtain ⟨hline, hoperands, hos⟩ := node_append_inj heq
      obtain ⟨rfl, hrights⟩ := ihLeft hleft _ hleft' _ _ hoperands
      rw [Operator.symbol_inj ((String.append_right_inj _).mp hline),
        (ihRight hright).eq hright' hrights]
      exact ⟨rfl, hos⟩
    | _ => cases hkind
  | lambda params body ih =>
    refine .of_kind kind?_outline fun e' h' hkind os os' heq ↦ ?_
    cases h'.genuine with
    | lambda params' _ =>
      obtain ⟨hline, hbody, hos⟩ := node_append_inj heq
      have hparams := (String.append_right_inj _).mp ((String.append_left_inj _).mp hline)
      rw [eq_of_intercalate_eq h.isName_of_mem_params h'.isName_of_mem_params hparams,
        (ih h.body).eq h'.body hbody]
      exact ⟨rfl, hos⟩
    | _ => cases hkind
  | call callee args ih ihs =>
    refine .of_kind kind?_outline fun e' h' hkind os os' heq ↦ ?_
    obtain ⟨hcallee, hargs⟩ := h.callee_args
    cases h'.genuine with
    | call _ _ =>
      obtain ⟨hcallee', hargs'⟩ := h'.callee_args
      rw [outline_call, outline_call] at heq
      obtain ⟨-, hbelow, hos⟩ := node_append_inj heq
      obtain ⟨rfl, harguments⟩ := ih hcallee _ hcallee' _ _ hbelow
      rw [eq_of_outlineArguments_eq (fun a ha ↦ ihs a ha (hargs a ha)) hargs' harguments]
      exact ⟨rfl, hos⟩
    | _ => cases hkind

end Expr

/-! ## Expressions that were read -/

theorem Datum.mem_names_list {d : Datum} {items : List Datum} {name : String} (hd : d ∈ items)
    (h : name ∈ d.names) : name ∈ (list items).names := by
  rw [names, namesAll_eq_flatMap]
  exact List.mem_flatMap.mpr ⟨d, hd, h⟩

namespace Expr

theorem mem_toData {args : List Expr} {a : Expr} (h : a ∈ args) : a.toDatum ∈ toData args := by
  induction args with
  | nil => cases h
  | cons a' args ih =>
    rcases List.mem_cons.mp h with rfl | h
    · exact List.mem_cons_self
    · exact List.mem_cons_of_mem _ (ih h)

theorem mem_names_toDatum {e : Expr} {name : String} (h : name ∈ e.names) :
    name ∈ e.toDatum.names := by
  induction e with
  | literal datum => exact h
  | symbol name' => exact h
  | definition name' value ih =>
    rcases List.mem_cons.mp h with rfl | h
    · exact Datum.mem_names_list (d := .symbol name) (by simp) (List.mem_singleton_self name)
    · exact Datum.mem_names_list (by simp) (ih h)
  | conditional test yes no ihTest ihYes ihNo =>
    simp only [names, List.mem_append] at h
    rcases h with h | h | h
    · exact Datum.mem_names_list (by simp) (ihTest h)
    · exact Datum.mem_names_list (by simp) (ihYes h)
    · exact Datum.mem_names_list (by simp) (ihNo h)
  | binary op left right ihLeft ihRight =>
    rcases List.mem_append.mp h with h | h
    · exact Datum.mem_names_list (by simp) (ihLeft h)
    · exact Datum.mem_names_list (by simp) (ihRight h)
  | lambda params body ih =>
    rcases List.mem_append.mp h with h | h
    · have hparam : Datum.symbol name ∈ params.map Datum.symbol := List.mem_map_of_mem h
      exact Datum.mem_names_list (by simp)
        (Datum.mem_names_list hparam (List.mem_singleton_self name))
    · exact Datum.mem_names_list (by simp) (ih h)
  | call callee args ih ihs =>
    rw [names, namesAll_eq_flatMap] at h
    rcases List.mem_append.mp h with h | h
    · exact Datum.mem_names_list List.mem_cons_self (ih h)
    · obtain ⟨a, ha, h⟩ := List.mem_flatMap.mp h
      exact Datum.mem_names_list (List.mem_cons_of_mem _ (mem_toData ha)) (ihs a ha h)

end Expr

theorem Datum.Readable.isName_of_mem_names {d : Datum} (h : d.Readable) :
    ∀ name ∈ d.names, Text.IsName name.toList := by
  induction h with
  | list _ ih =>
    rw [names, namesAll_eq_flatMap, List.forall_mem_flatMap]
    exact ih
  | symbol h => exact List.forall_mem_singleton.mpr h
  | integer _ => exact List.forall_mem_nil _
  | bool _ => exact List.forall_mem_nil _
  | quote _ ih => exact ih

/-- Some text, read from some offset on, spells the expression under the table of operators. -/
def Expr.SpelledUnder (table : OperatorTable) (e : Expr) : Prop :=
  ∃ text offset d next, Datum.readAt text offset = some (.ok (d, next)) ∧ ofDatum table d = .ok e

theorem Expr.SpelledUnder.proper {table : OperatorTable} {e : Expr} (h : e.SpelledUnder table) :
    e.Proper := by
  obtain ⟨text, offset, d, next, hread, he⟩ := h
  have hrecognised := recognised_of_ofDatum he
  refine ⟨hrecognised.genuine ⟨fun _ _ _ ↦ trivial, fun _ ↦ trivial⟩ trivial, fun name hname ↦ ?_⟩
  have hmem := mem_names_toDatum hname
  rw [hrecognised.toDatum_eq] at hmem
  exact (Datum.readable_of_readAt hread).isName_of_mem_names name hmem

theorem Expr.Proper.plain_outline {e : Expr} (h : e.Proper) : AllLines Plain e.outline :=
  Expr.plain_outline fun name hname ↦ (h.isName name hname).not_mem (by decide)

/-- **Indented text is lossless.** At every column, different data have different indented texts, as
long as no name in them holds a line feed, and so have different expressions that were read from
some texts and recognised, be it under different operators. -/
theorem pretty_lossless (column : Nat) :
    (∀ d d' : Datum, (∀ name ∈ d.names, '\n' ∉ name.toList) →
      (∀ name ∈ d'.names, '\n' ∉ name.toList) → d ≠ d' → d.pretty column ≠ d'.pretty column) ∧
    ∀ table table' (e e' : Expr), e.SpelledUnder table → e'.SpelledUnder table' → e ≠ e' →
      e.pretty column ≠ e'.pretty column := by
  refine ⟨fun d d' h h' hne heq ↦ hne ?_, fun table table' e e' h h' hne heq ↦ hne ?_⟩
  · have houtline := eq_of_render_eq (Datum.plain_outline h) (Datum.plain_outline h') heq
    exact d.legible.eq trivial houtline
  · have houtline := eq_of_render_eq h.proper.plain_outline h'.proper.plain_outline heq
    exact h.proper.legible.eq h'.proper houtline

/-- A call without arguments as an argument or as the callee. -/
theorem pretty_lossless_call_of_call :
    let d := Datum.list [.list [.symbol "f"], .symbol "x"]
    let d' := Datum.list [.list [.symbol "f", .symbol "x"]]
    let e := Expr.call (.call (.symbol "f") []) [.symbol "x"]
    let e' := Expr.call (.call (.symbol "f") [.symbol "x"]) []
    d.pretty 2 ≠ d'.pretty 2 ∧ e.pretty 2 ≠ e'.pretty 2 := by
  intro d d' e e'
  have hread : Datum.read "((f) x)".toList = .ok (d, []) := by cbv
  have hread' : Datum.read "((f x))".toList = .ok (d', []) := by cbv
  have hreadAt := Datum.readAt_byteLength [] "((f) x)".toList
  rw [hread] at hreadAt
  have hreadAt' := Datum.readAt_byteLength [] "((f x))".toList
  rw [hread'] at hreadAt'
  have he : Expr.ofDatum .full d = .ok e := by cbv
  have he' : Expr.ofDatum .full d' = .ok e' := by cbv
  obtain ⟨hdata, hexprs⟩ := pretty_lossless 2
  exact ⟨hdata d d' (by decide) (by decide) (by decide),
    hexprs .full .full e e' ⟨_, _, _, _, hreadAt, he⟩ ⟨_, _, _, _, hreadAt', he'⟩ (by decide)⟩

end LexicalLisp
