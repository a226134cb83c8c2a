import LexicalLisp.Proofs.Evaluation.Discipline
import LexicalLisp.Proofs.Forms.Spelling

/-!
# Genuine expressions

A literal can hold any datum, but only integers, truth values and quoted data have a value. In an
expression that was recognised in a datum there are no other literals, at any depth and in any
lambda (`Expr.Recognised.genuine`). Such an expression is called genuine, and so are the values and
the stores in which all bodies of closures are.

Evaluation keeps to genuine values and stores, and the causes for which it fails there are those of
`Cause.Dynamic` (`Discipline.genuine`). What the quoted data are like is left open: genuineness is
relative to a property that all of them have.
-/

namespace LexicalLisp

/-- All literals have a value, and what is quoted has the property. -/
inductive Expr.Genuine (P : Datum → Prop) : Expr → Prop
  | integer (value : Fixnum) : Genuine P (.literal (.integer value))
  | bool (value : Bool) : Genuine P (.literal (.bool value))
  | quote {inner : Datum} (h : P inner) : Genuine P (.literal (.quote inner))
  | symbol (name : String) : Genuine P (.symbol name)
  | definition (name : String) {value : Expr} (h : Genuine P value) :
    Genuine P (.definition name value)
  | conditional {test yes no : Expr} (h₁ : Genuine P test) (h₂ : Genuine P yes)
    (h₃ : Genuine P no) : Genuine P (.conditional test yes no)
  | binary (op : Operator) {left right : Expr} (h₁ : Genuine P left) (h₂ : Genuine P right) :
    Genuine P (.binary op left right)
  | lambda (params : List String) {body : Expr} (h : Genuine P body) :
    Genuine P (.lambda params body)
  | call {callee : Expr} {args : List Expr} (h : Genuine P callee)
    (hargs : ∀ a ∈ args, Genuine P a) : Genuine P (.call callee args)

variable {P : Datum → Prop}

/-! ## What is recognised is genuine -/

/-- The data inside a datum have the property if the datum has it. -/
structure Datum.Inherited (P : Datum → Prop) : Prop where
  list : ∀ {ds}, P (.list ds) → ∀ d ∈ ds, P d
  quote : ∀ {d}, P (.quote d) → P d

namespace Expr

variable {table : OperatorTable}

mutual

theorem Recognised.genuine (hP : Datum.Inherited P) :
    ∀ {d : Datum} {e : Expr}, Recognised table d e → P d → e.Genuine P
  | _, _, .integer value, _ => .integer value
  | _, _, .bool value, _ => .bool value
  | _, _, .quote _, hd => .quote (hP.quote hd)
  | _, _, .symbol name, _ => .symbol name
  | _, _, .definition h, hd => .definition _ (h.genuine hP (hP.list hd _ (by simp)))
  | _, _, .conditional h₁ h₂ h₃, hd => .conditional (h₁.genuine hP (hP.list hd _ (by simp)))
    (h₂.genuine hP (hP.list hd _ (by simp))) (h₃.genuine hP (hP.list hd _ (by simp)))
  | _, _, .binary h₁ h₂, hd => .binary _ (h₁.genuine hP (hP.list hd _ (by simp)))
    (h₂.genuine hP (hP.list hd _ (by simp)))
  | _, _, .lambda h, hd => .lambda _ (h.genuine hP (hP.list hd _ (by simp)))
  | _, _, .call h hargs, hd => .call (h.genuine hP (hP.list hd _ (by simp)))
    (hargs.genuine hP fun d hmem ↦ hP.list hd d (List.mem_cons_of_mem _ hmem))

theorem AllRecognised.genuine (hP : Datum.Inherited P) :
    ∀ {ds : List Datum} {es : List Expr}, AllRecognised table ds es → (∀ d ∈ ds, P d) →
      ∀ e ∈ es, e.Genuine P
  | _, _, .nil, _ => nofun
  | _, _, .cons h hs, hds => by
    rw [List.forall_mem_cons] at hds ⊢
    exact ⟨h.genuine hP hds.1, hs.genuine hP hds.2⟩

end

end Expr

/-! ## Values and stores -/

/-- A closure is genuine if its body is, and a quoted datum if it has the property. -/
def Value.Genuine (P : Datum → Prop) : Value → Prop
  | .quoted datum => P datum
  | .closure c => c.lambda.body.Genuine P
  | _ => True

namespace Store

variable {s : Store}

/-- All values in the frames are genuine. -/
structure Genuine (P : Datum → Prop) (s : Store) : Prop where
  /-- A bound value is genuine. -/
  genuine_value : ∀ {f name v}, s.local? f name = some v → v.Genuine P

theorem genuine_empty : empty.Genuine P where
  genuine_value h := nomatch h

theorem Genuine.of_lookup? (hs : s.Genuine P) {f : FrameId} {name : String} {v : Value}
    (h : s.lookup? f name = some v) : v.Genuine P := by
  obtain ⟨g, hg⟩ := exists_local?_of_lookup? h
  exact hs.genuine_value hg

theorem Genuine.newFrame (hs : s.Genuine P) (parent : Option FrameId) :
    (s.newFrame parent).2.Genuine P where
  genuine_value h := hs.genuine_value (by rwa [local?_newFrame] at h)

theorem Genuine.newForm (hs : s.Genuine P) : s.newForm.2.Genuine P := ⟨hs.genuine_value⟩

theorem Genuine.bind (hs : s.Genuine P) (f : FrameId) (name : String) {v : Value}
    (hv : v.Genuine P) : (s.bind f name v).Genuine P where
  genuine_value h := by
    obtain rfl | h := eq_or_local?_of_bind h
    · exact hv
    · exact hs.genuine_value h

theorem Genuine.enter (hs : s.Genuine P) {c : Closure} {args : List Value}
    (hargs : ∀ v ∈ args, v.Genuine P) : (s.enter c args).Genuine P :=
  bindAll_induction (hs.newFrame _) fun _ hs' b hb ↦
    hs'.bind _ b.1 (hargs b.2 (List.of_mem_zip hb).2)

end Store

/-- A literal of a genuine expression has a value. -/
theorem Expr.Genuine.ofLiteral {datum : Datum} (h : (Expr.literal datum).Genuine P) :
    ∃ v, Value.ofLiteral datum = .ok v ∧ v.Genuine P := by
  cases h with
  | integer value => exact ⟨.integer value, rfl, trivial⟩
  | bool value => exact ⟨.bool value, rfl, trivial⟩
  | quote hinner => exact ⟨.quoted _, rfl, hinner⟩

/-! ## The discipline -/

/-- That everything is genuine is a discipline, in which evaluation fails for dynamic causes
only. -/
def Discipline.genuine (P : Datum → Prop) : Discipline where
  store s := s.Genuine P
  later _ _ := True
  value _ v := v.Genuine P
  expr _ _ e := e.Genuine P
  cause := Cause.Dynamic
  later_refl _ := trivial
  later_trans _ _ := trivial
  value_later _ hv := hv
  expr_later _ he := he
  integer _ _ := trivial
  bool _ _ := trivial
  cause_of_dynamic h _ := h
  literal := by
    intro s f datum h
    obtain ⟨v, hv, hgenuine⟩ := h.ofLiteral
    rw [hv]
    exact ⟨fun w hw ↦ Except.ok.inj hw ▸ hgenuine, nofun⟩
  symbol hs _ := ⟨fun _ hv ↦ hs.of_lookup? hv, fun _ ↦ .unbound _⟩
  conditional h := by
    cases h with
    | conditional h₁ h₂ h₃ => exact ⟨h₁, h₂, h₃⟩
  binary h := by
    cases h with
    | binary _ h₁ h₂ => exact ⟨h₁, h₂⟩
  call h := by
    cases h with
    | call h hargs => exact ⟨h, hargs⟩
  lambda _ h := by
    cases h with
    | lambda _ h => exact h
  definition h _ := by
    cases h with
    | definition _ h => exact h
  bind hs _ hv := ⟨trivial, hs.bind _ _ hv⟩
  bind_lambda _ hs h := by
    cases h with
    | definition _ h =>
      cases h with
      | lambda _ h => exact ⟨trivial, hs.bind _ _ h, h⟩
  enter hs hc hargs _ := ⟨trivial, hs.enter hargs, hc⟩

end LexicalLisp
