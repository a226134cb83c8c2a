import Mathlib.Data.List.Forall2
import LexicalLisp.Eval
import LexicalLisp.Proofs.Evaluation.Translation

/-!
# Two stores that differ in what evaluation does not look at

Evaluation does not look at the numbers of frames, at the sites of lambdas or at what is quoted, it
compares names only with one another, and it does not look at a binding that no expression refers
to. A `Correspondence` says how two runs may differ in these respects, and this file says what it
then means for expressions, values, faults, events and stores to correspond.

Frames correspond by a strictly increasing map. Its values at the numbers that are still free must
be the free numbers of the other store, in order (`Stores.frame_size`), so that frames made on both
sides at the same time correspond again. Names correspond by an injective map. A name that is not
visible may be bound differently on the two sides, and therefore no corresponding expressions
refer to it.

Closures correspond if their lambdas and their frames do. What they lead to in the end need not be
compared, since the frames of corresponding stores are compared one by one.
-/

namespace LexicalLisp

/-! ## The names that an expression refers to -/

namespace Expr

mutual

/-- The names that an expression refers to, those in its lambdas included. -/
def references : Expr → List String
  | .literal _ => []
  | .symbol name => [name]
  | .definition _ value => references value
  | .conditional test yes no => references test ++ references yes ++ references no
  | .binary _ left right => references left ++ references right
  | .lambda _ body => references body
  | .call callee args => references callee ++ referencesAll args

/-- The names that a list of expressions refers to. -/
def referencesAll : List Expr → List String
  | [] => []
  | e :: rest => references e ++ referencesAll rest

end

theorem referencesAll_eq_flatMap (es : List Expr) : referencesAll es = es.flatMap references := by
  induction es with
  | nil => rfl
  | cons e es ih => rw [referencesAll, List.flatMap_cons, ih]

end Expr

/-- What can be seen of an event: its level, what happened, and the texts of its fields. -/
def Event.shown (event : Event) : Level × String × List (String × String) :=
  (event.level, event.message, event.fields)

/-- How two runs may differ. -/
structure Correspondence where
  /-- The frame of the second run for a frame of the first. -/
  frame : FrameId → FrameId
  /-- Frames correspond in the order of their numbers. -/
  frame_lt : ∀ {f g}, frame f < frame g ↔ f < g
  /-- Whether two places correspond. -/
  site : Site → Site → Prop
  /-- Corresponding parts of corresponding places correspond. -/
  site_cons : ∀ {p q} (i : Nat), site p q → site (i :: p) (i :: q)
  /-- The name in the second run for a name in the first. -/
  name : String → String
  /-- Different names stay different. -/
  name_inj : ∀ {m n}, name m = name n → m = n
  /-- Whether a name may be referred to. -/
  visible : String → Prop
  /-- Whether two data correspond that are carried along. -/
  payload : Datum → Datum → Prop
  /-- Whether two data correspond that stand as literals and have no value. -/
  defect : Datum → Datum → Prop

namespace Correspondence

/-- The runs do not differ, and every name may be referred to. -/
def same : Correspondence where
  frame f := f
  frame_lt := Iff.rfl
  site := (· = ·)
  site_cons i h := congrArg (i :: ·) h
  name := id
  name_inj h := h
  visible _ := True
  payload := (· = ·)
  defect := (· = ·)

variable (R : Correspondence)

theorem frame_inj {f g : FrameId} : R.frame f = R.frame g ↔ f = g := by
  refine ⟨fun h ↦ Nat.le_antisymm ?_ ?_, congrArg R.frame⟩
  · exact Nat.not_lt.mp fun hlt ↦ Nat.lt_irrefl _ (h ▸ R.frame_lt.mpr hlt)
  · exact Nat.not_lt.mp fun hlt ↦ Nat.lt_irrefl _ (h ▸ R.frame_lt.mpr hlt)

/-! ## Programs -/

/-- Literals correspond if they are equal up to the data that are carried along. -/
inductive Literals : Datum → Datum → Prop
  | integer (value : Fixnum) : Literals (.integer value) (.integer value)
  | bool (value : Bool) : Literals (.bool value) (.bool value)
  | quote {d d' : Datum} (h : R.payload d d') : Literals (.quote d) (.quote d')
  | symbol {n n' : String} (h : R.defect (.symbol n) (.symbol n')) :
    Literals (.symbol n) (.symbol n')
  | list {ds ds' : List Datum} (h : R.defect (.list ds) (.list ds')) :
    Literals (.list ds) (.list ds')

/-- Expressions correspond if they have the same shape, names that correspond, and refer to visible
names only. -/
inductive Exprs : Expr → Expr → Prop
  | literal {d d' : Datum} (h : R.Literals d d') : Exprs (.literal d) (.literal d')
  | symbol {n : String} (h : R.visible n) : Exprs (.symbol n) (.symbol (R.name n))
  | definition (n : String) {e e' : Expr} (h : Exprs e e') :
    Exprs (.definition n e) (.definition (R.name n) e')
  | conditional {e₁ e₁' e₂ e₂' e₃ e₃' : Expr} (h₁ : Exprs e₁ e₁') (h₂ : Exprs e₂ e₂')
    (h₃ : Exprs e₃ e₃') : Exprs (.conditional e₁ e₂ e₃) (.conditional e₁' e₂' e₃')
  | binary (op : Operator) {e₁ e₁' e₂ e₂' : Expr} (h₁ : Exprs e₁ e₁') (h₂ : Exprs e₂ e₂') :
    Exprs (.binary op e₁ e₂) (.binary op e₁' e₂')
  | lambda (params : List String) {e e' : Expr} (h : Exprs e e') :
    Exprs (.lambda params e) (.lambda (params.map R.name) e')
  | call {e e' : Expr} {args args' : List Expr} (h : Exprs e e')
    (hargs : List.Forall₂ Exprs args args') : Exprs (.call e args) (.call e' args')

/-- Lambdas correspond if they stand at corresponding places and have corresponding parameters and
bodies. -/
structure Lambdas (l l' : Lambda) : Prop where
  site : R.site l.site l'.site
  params : l'.params = l.params.map R.name
  body : R.Exprs l.body l'.body

/-! ## What evaluation gives -/

/-- Values correspond if they are equal up to the data that are carried along and the frames and
the places of closures. -/
inductive Values : Value → Value → Prop
  | integer (value : Fixnum) : Values (.integer value) (.integer value)
  | bool (value : Bool) : Values (.bool value) (.bool value)
  | quoted {d d' : Datum} (h : R.payload d d') : Values (.quoted d) (.quoted d')
  | closure {l l' : Lambda} (f : FrameId) (h : R.Lambdas l l') :
    Values (.closure ⟨l, f⟩) (.closure ⟨l', R.frame f⟩)

/-- Causes of faults correspond if they are of one kind and about things that correspond. -/
inductive Causes : Cause → Cause → Prop
  | unreadable (error : ReadError) : Causes (.unreadable error) (.unreadable error)
  | malformed (defect : Malformation) : Causes (.malformed defect) (.malformed defect)
  | literal {d d' : Datum} (h : R.Literals d d') :
    Causes (.malformed (.literal d)) (.malformed (.literal d'))
  | arity (expected found : Nat) : Causes (.arity expected found) (.arity expected found)
  | divisionByZero : Causes .divisionByZero .divisionByZero
  | integerOverflow (operation : String) :
    Causes (.integerOverflow operation) (.integerOverflow operation)
  | notCallable {v v' : Value} (h : R.Values v v') :
    Causes (.notCallable v.render) (.notCallable v'.render)
  | typeMismatch {v w : Value} (h : R.Values v w) :
    Causes (.typeMismatch s!"expected integer, got {v.typeName} {v.render}")
      (.typeMismatch s!"expected integer, got {w.typeName} {w.render}")
  | unbound {n : String} (h : R.visible n) : Causes (.unbound n) (.unbound (R.name n))

/-- Texts in a trail correspond if they are those of corresponding expressions, or of one
operator. -/
inductive Texts : String → String → Prop
  | form {e e' : Expr} (h : R.Exprs e e') : Texts e.render e'.render
  | operator (op : Operator) : Texts ("operator " ++ op.symbol) ("operator " ++ op.symbol)

/-- Faults correspond if their causes and their trails do. -/
structure Faults (x x' : Fault) : Prop where
  cause : R.Causes x.cause x'.cause
  trail : List.Forall₂ R.Texts x.trail x'.trail

/-- Events correspond if they are of one kind and about things that correspond. -/
inductive Events : Event → Event → Prop
  | evaluating {e e' : Expr} (h : R.Exprs e e') : Events (.evaluating e) (.evaluating e')
  | call {c c' : Closure} (count : Nat) (h : R.Values (.closure c) (.closure c')) :
    Events (.call c count) (.call c' count)
  | bind (n : String) {v v' : Value} (h : R.Values v v') :
    Events (.bind n v) (.bind (R.name n) v')

/-- Entries correspond if both hold values that correspond, or both are back references of
corresponding closures. -/
inductive Entries : Entry → Entry → Prop
  | value {v v' : Value} (h : R.Values v v') : Entries (.value v) (.value v')
  | own {l l' : Lambda} (h : R.Lambdas l l') : Entries (.own l) (.own l')

/-- Stores correspond if their frames have corresponding parents and corresponding entries under
the visible names. -/
structure Stores (s s' : Store) : Prop where
  /-- The free numbers correspond in order. -/
  frame_size : ∀ k, R.frame (s.frames.size + k) = s'.frames.size + k
  /-- Parents correspond. -/
  parent : ∀ f, s'.parent? (R.frame f) = (s.parent? f).map R.frame
  /-- The entries of visible names correspond. -/
  entries : ∀ f n, R.visible n →
    Option.Rel R.Entries ((s.bindings f).get? n) ((s'.bindings (R.frame f)).get? (R.name n))

/-- Results correspond if both are values that are related, or both are corresponding faults. -/
inductive Results {α β : Type} (V : α → β → Prop) : Except Fault α → Except Fault β → Prop
  | ok {a : α} {b : β} (h : V a b) : Results V (.ok a) (.ok b)
  | error {x x' : Fault} (h : R.Faults x x') : Results V (.error x) (.error x')

/-- Runs correspond if their results do, and the stores and the events they leave behind. -/
structure Runs {α β : Type} (V : α → β → Prop) (r : Run α) (r' : Run β) : Prop where
  result : R.Results V r.result r'.result
  store : R.Stores r.store r'.store
  events : List.Forall₂ R.Events r.events r'.events

/-! ## Correspondences that are translations

If the names and the data on the second side are determined by those on the first, so are the
expressions. -/

/-- The second side has the other names and the other data of a translation. -/
structure Translates (t : Translation) : Prop where
  name_eq : ∀ n, R.name n = t.name n
  payload_iff : ∀ {d d'}, R.payload d d' ↔ d' = t.quoted d
  defect_iff : ∀ {d d'}, R.defect d d' ↔ d' = t.literal d

theorem eq_map_of_forall₂ {α β : Type} {P : α → β → Prop} {g : α → β} {l : List α}
    {l' : List β} (h : List.Forall₂ P l l') (heq : ∀ a ∈ l, ∀ b, P a b → b = g a) :
    l' = l.map g := by
  induction h with
  | nil => rfl
  | cons ha _ ih =>
    rw [heq _ List.mem_cons_self _ ha, ih fun a ha ↦ heq a (List.mem_cons_of_mem _ ha),
      List.map_cons]

section Translates

variable {R} {t : Translation} (hR : R.Translates t)

include hR

theorem Literals.eq_translate {d d' : Datum} (h : R.Literals d d') : d' = t.literal d := by
  cases h with
  | integer | bool => rfl
  | quote h => rw [hR.payload_iff.mp h, Translation.literal]
  | symbol h | list h => exact hR.defect_iff.mp h

theorem literals_translate (d : Datum) : R.Literals d (t.literal d) := by
  cases d with
  | integer value => exact .integer value
  | bool value => exact .bool value
  | quote d => exact .quote (hR.payload_iff.mpr rfl)
  | symbol n => exact .symbol (hR.defect_iff.mpr rfl)
  | list ds => exact .list (hR.defect_iff.mpr rfl)

theorem map_name_eq_translate (names : List String) : names.map R.name = names.map t.name :=
  List.map_congr_left fun n _ ↦ hR.name_eq n

/-- What corresponds to an expression is its translation. -/
theorem Exprs.eq_translate {e e' : Expr} (h : R.Exprs e e') : e' = e.translate t := by
  induction e generalizing e' with
  | literal d =>
    cases h with
    | literal hd => rw [hd.eq_translate hR, Expr.translate]
  | symbol n =>
    cases h with
    | symbol hn => rw [hR.name_eq, Expr.translate]
  | definition n e ih =>
    cases h with
    | definition _ he => rw [hR.name_eq, ih he, Expr.translate]
  | conditional e₁ e₂ e₃ ih₁ ih₂ ih₃ =>
    cases h with
    | conditional h₁ h₂ h₃ => rw [ih₁ h₁, ih₂ h₂, ih₃ h₃, Expr.translate]
  | binary op e₁ e₂ ih₁ ih₂ =>
    cases h with
    | binary _ h₁ h₂ => rw [ih₁ h₁, ih₂ h₂, Expr.translate]
  | lambda params e ih =>
    cases h with
    | lambda _ he => rw [map_name_eq_translate hR, ih he, Expr.translate]
  | call e args ih ihs =>
    cases h with
    | call he hargs =>
      rw [ih he, eq_map_of_forall₂ hargs fun a ha _ haa' ↦ ihs a ha haa', Expr.translate,
        Expr.translateAll_eq_map]

theorem exprs_translate {e : Expr} (hvisible : ∀ n ∈ e.references, R.visible n) :
    R.Exprs e (e.translate t) := by
  induction e with
  | literal d => exact .literal (literals_translate hR d)
  | symbol n =>
    rw [Expr.translate, ← hR.name_eq]
    exact .symbol (hvisible n (List.mem_singleton_self n))
  | definition n e ih =>
    rw [Expr.translate, ← hR.name_eq]
    exact .definition n (ih hvisible)
  | conditional e₁ e₂ e₃ ih₁ ih₂ ih₃ =>
    simp only [Expr.references, List.forall_mem_append] at hvisible
    obtain ⟨⟨h₁, h₂⟩, h₃⟩ := hvisible
    exact .conditional (ih₁ h₁) (ih₂ h₂) (ih₃ h₃)
  | binary op e₁ e₂ ih₁ ih₂ =>
    simp only [Expr.references, List.forall_mem_append] at hvisible
    obtain ⟨h₁, h₂⟩ := hvisible
    exact .binary op (ih₁ h₁) (ih₂ h₂)
  | lambda params e ih =>
    rw [Expr.translate, ← map_name_eq_translate hR]
    exact .lambda params (ih hvisible)
  | call e args ih ihs =>
    simp only [Expr.references, Expr.referencesAll_eq_flatMap, List.forall_mem_append,
      List.forall_mem_flatMap] at hvisible
    obtain ⟨h, hargs⟩ := hvisible
    rw [Expr.translate, Expr.translateAll_eq_map]
    refine .call (ih h) ?_
    rw [List.forall₂_map_right_iff, List.forall₂_same]
    exact fun a ha ↦ ihs a ha (hargs a ha)

/-- Corresponding lambdas at equal places are translations. -/
theorem Lambdas.eq_translate {l l' : Lambda} (h : R.Lambdas l l') (hsite : l.site = l'.site) :
    l' = l.translate t := by
  obtain ⟨site, params, body⟩ := l
  obtain ⟨site', params', body'⟩ := l'
  have hparams : params' = params.map t.name := h.params.trans (map_name_eq_translate hR params)
  have hbody : body' = body.translate t := h.body.eq_translate hR
  rw [hparams, hbody, show site = site' from hsite]
  rfl

end Translates

/-! ## Correspondences that keep names and data

If names and the data that are carried along are the same on both sides, so are programs, and all
texts that a run shows. -/

/-- Names and all data in literals are the same on both sides. -/
structure KeepsTexts : Prop where
  name_eq : ∀ n, R.name n = n
  payload_iff : ∀ {d d'}, R.payload d d' ↔ d = d'
  defect_iff : ∀ {d d'}, R.defect d d' ↔ d = d'

theorem KeepsTexts.translates (hR : R.KeepsTexts) : R.Translates .refl where
  name_eq := hR.name_eq
  payload_iff := hR.payload_iff.trans eq_comm
  defect_iff {d d'} := by
    rw [Translation.literal_refl]
    exact hR.defect_iff.trans eq_comm

section KeepsTexts

variable {R}

theorem Values.typeName_eq {v v' : Value} (h : R.Values v v') : v'.typeName = v.typeName := by
  cases h <;> rfl

variable (hR : R.KeepsTexts)

include hR

theorem Literals.eq {d d' : Datum} (h : R.Literals d d') : d' = d :=
  (h.eq_translate hR.translates).trans (Translation.literal_refl d)

theorem map_name_eq (names : List String) : names.map R.name = names :=
  (map_name_eq_translate hR.translates names).trans (List.map_id names)

theorem Exprs.eq {e e' : Expr} (h : R.Exprs e e') : e' = e :=
  (h.eq_translate hR.translates).trans e.translate_refl

theorem Lambdas.eq {l l' : Lambda} (h : R.Lambdas l l') (hsite : l.site = l'.site) : l' = l :=
  (h.eq_translate hR.translates hsite).trans l.translate_refl

theorem Values.render_eq {v v' : Value} (h : R.Values v v') : v'.render = v.render := by
  cases h with
  | integer | bool => rfl
  | quoted h => rw [hR.payload_iff.mp h]
  | closure f hl =>
    rw [Value.render, Value.render, Lambda.render, Lambda.render, hl.params, map_name_eq hR]

theorem Causes.eq {cause cause' : Cause} (h : R.Causes cause cause') : cause' = cause := by
  cases h with
  | unreadable | malformed | arity | divisionByZero | integerOverflow => rfl
  | literal hd => rw [hd.eq hR]
  | notCallable hv => rw [hv.render_eq hR]
  | typeMismatch hv => rw [hv.render_eq hR, hv.typeName_eq]
  | unbound hn => rw [hR.name_eq]

theorem Texts.eq {text text' : String} (h : R.Texts text text') : text' = text := by
  cases h with
  | form he => rw [he.eq hR]
  | operator => rfl

theorem Faults.eq {x x' : Fault} (h : R.Faults x x') : x' = x := by
  obtain ⟨cause, trail⟩ := x
  obtain ⟨cause', trail'⟩ := x'
  have hcause : cause' = cause := h.cause.eq hR
  have htrail : trail' = trail :=
    (eq_map_of_forall₂ h.trail fun _ _ _ ht ↦ ht.eq hR).trans (List.map_id trail)
  rw [hcause, htrail]

theorem Events.shown_eq {event event' : Event} (h : R.Events event event') :
    event'.shown = event.shown := by
  cases h with
  | evaluating he => rw [he.eq hR]
  | @call c c' count hc =>
    have hrender : c'.lambda.render = c.lambda.render := hc.render_eq hR
    simp only [Event.shown, Event.level, Event.message, Event.fields, hrender]
  | bind n hv =>
    simp only [Event.shown, Event.level, Event.message, Event.fields, hv.render_eq hR, hR.name_eq]

theorem map_shown_eq {events events' : List Event} (h : List.Forall₂ R.Events events events') :
    events'.map Event.shown = events.map Event.shown := by
  induction h with
  | nil => rfl
  | cons hevent _ ih => rw [List.map_cons, List.map_cons, hevent.shown_eq hR, ih]

theorem exprs_refl {e : Expr} (hvisible : ∀ n ∈ e.references, R.visible n) : R.Exprs e e := by
  have h := exprs_translate hR.translates hvisible
  rwa [e.translate_refl] at h

/-- A value whose closure, if it is one, has kept its place and its frame corresponds to itself. -/
theorem values_refl (hvisible : ∀ n, R.visible n) {v : Value}
    (hv : ∀ c, v = .closure c → R.site c.lambda.site c.lambda.site ∧ R.frame c.frame = c.frame) :
    R.Values v v := by
  cases v with
  | integer value => exact .integer value
  | bool value => exact .bool value
  | quoted d => exact .quoted (hR.payload_iff.mpr rfl)
  | closure c =>
    obtain ⟨hsite, hframe⟩ := hv c rfl
    have hl : R.Lambdas c.lambda c.lambda :=
      ⟨hsite, (map_name_eq hR _).symm, exprs_refl hR fun n _ ↦ hvisible n⟩
    have h : R.Values (.closure ⟨c.lambda, c.frame⟩) (.closure ⟨c.lambda, R.frame c.frame⟩) :=
      .closure c.frame hl
    rwa [hframe] at h

end KeepsTexts

/-! ## Corresponding stores -/

variable {R}

theorem Entries.toValue {entry entry' : Entry} (h : R.Entries entry entry') (f : FrameId) :
    R.Values (entry.toValue f) (entry'.toValue (R.frame f)) := by
  cases h with
  | value hv => exact hv
  | own hl => exact .closure f hl

/-- Corresponding values are held alike, since frames correspond one to one. -/
theorem Values.entry {v v' : Value} (h : R.Values v v') (f : FrameId) :
    R.Entries (Entry.of f v) (Entry.of (R.frame f) v') := by
  cases h with
  | integer i => exact .value (.integer i)
  | bool b => exact .value (.bool b)
  | quoted hd => exact .value (.quoted hd)
  | closure g hl =>
    simp only [Entry.of, R.frame_inj]
    split
    · exact .own hl
    · exact .value (.closure g hl)

namespace Stores

variable {s s' : Store}

theorem values (h : R.Stores s s') (f : FrameId) (n : String) (hn : R.visible n) :
    Option.Rel R.Values (s.local? f n) (s'.local? (R.frame f) (R.name n)) := by
  have hentry := h.entries f n hn
  rw [Store.local?, Store.local?]
  generalize (s.bindings f).get? n = x, (s'.bindings (R.frame f)).get? (R.name n) = y at hentry ⊢
  cases hentry with
  | none => exact .none
  | some he => exact .some (he.toValue f)

theorem frame_lt_size (h : R.Stores s s') {f : FrameId} :
    R.frame f < s'.frames.size ↔ f < s.frames.size := by
  rw [← R.frame_lt (g := s.frames.size)]
  have hsize : R.frame s.frames.size = s'.frames.size := h.frame_size 0
  rw [hsize]

theorem chain_eq (h : R.Stores s s') (f : FrameId) :
    s'.chain (R.frame f) = (s.chain f).map R.frame := by
  fun_induction s.chain f with
  | case1 f hp =>
    have hp' : s'.parent? (R.frame f) = none := by rw [h.parent, hp, Option.map_none]
    rw [Store.chain]
    simp [hp']
  | case2 f p hp hlt ih =>
    have hp' : s'.parent? (R.frame f) = some (R.frame p) := by rw [h.parent, hp, Option.map_some]
    rw [Store.chain]
    simp [hp', R.frame_lt.mpr hlt, ih]
  | case3 f p hp hlt =>
    have hp' : s'.parent? (R.frame f) = some (R.frame p) := by rw [h.parent, hp, Option.map_some]
    rw [Store.chain]
    simp [hp', R.frame_lt, hlt]

private theorem rel_findSome? {gs : List FrameId} {p q : FrameId → Option Value}
    (h : ∀ g ∈ gs, Option.Rel R.Values (p g) (q (R.frame g))) :
    Option.Rel R.Values (gs.findSome? p) ((gs.map R.frame).findSome? q) := by
  induction gs with
  | nil => exact .none
  | cons g gs ih =>
    rw [List.map_cons, List.findSome?_cons, List.findSome?_cons]
    have hg := h g List.mem_cons_self
    generalize p g = a, q (R.frame g) = b at hg ⊢
    cases hg with
    | none => exact ih fun g' hg' ↦ h g' (List.mem_cons_of_mem g hg')
    | some hv => exact .some hv

/-- A visible name resolves to corresponding values, or on neither side. -/
theorem rel_lookup? (h : R.Stores s s') (f : FrameId) {n : String} (hn : R.visible n) :
    Option.Rel R.Values (s.lookup? f n) (s'.lookup? (R.frame f) (R.name n)) := by
  rw [Store.lookup?, Store.lookup?, h.chain_eq]
  exact rel_findSome? fun g _ ↦ h.values g n hn

theorem bind (h : R.Stores s s') (f : FrameId) (n : String) {v v' : Value} (hv : R.Values v v') :
    R.Stores (s.bind f n v) (s'.bind (R.frame f) (R.name n) v') where
  frame_size k := by simpa using h.frame_size k
  parent g := by simpa using h.parent g
  entries g m hm := by
    by_cases hf : f < s.frames.size
    · have hf' : R.frame f < s'.frames.size := h.frame_lt_size.mpr hf
      by_cases hg : g = f
      · subst hg
        rw [Store.bindings_bind_self s hf, Store.bindings_bind_self s' hf']
        by_cases hname : m = n
        · subst hname
          rw [Bindings.get?_insert_self, Bindings.get?_insert_self]
          exact .some (hv.entry g)
        · have hname' : R.name m ≠ R.name n := fun heq ↦ hname (R.name_inj heq)
          rw [Bindings.get?_insert_of_ne _ hname, Bindings.get?_insert_of_ne _ hname']
          exact h.entries g m hm
      · have hg' : R.frame g ≠ R.frame f := fun heq ↦ hg (R.frame_inj.mp heq)
        rw [Store.bindings_bind_of_ne s hg, Store.bindings_bind_of_ne s' hg']
        exact h.entries g m hm
    · have hf' : ¬R.frame f < s'.frames.size := fun hlt ↦ hf (h.frame_lt_size.mp hlt)
      rw [Store.bind_of_size_le s (Nat.not_lt.mp hf), Store.bind_of_size_le s' (Nat.not_lt.mp hf')]
      exact h.entries g m hm

theorem newFrame (h : R.Stores s s') (parent : Option FrameId) :
    R.Stores (s.newFrame parent).2 (s'.newFrame (parent.map R.frame)).2 where
  frame_size k := by
    rw [Store.size_newFrame, Store.size_newFrame, Nat.add_assoc, Nat.add_assoc]
    exact h.frame_size (1 + k)
  parent f := by
    -- the two new frames correspond, being the first free numbers
    have hsize : R.frame s.frames.size = s'.frames.size := h.frame_size 0
    rw [Store.parent?_newFrame, Store.parent?_newFrame]
    by_cases hf : f = s.frames.size
    · rw [if_pos hf, if_pos (hf ▸ hsize)]
    · rw [if_neg hf, if_neg fun h' ↦ hf (R.frame_inj.mp (h'.trans hsize.symm))]
      exact h.parent f
  entries f n hn := by simpa using h.entries f n hn

end Stores

end Correspondence

end LexicalLisp
