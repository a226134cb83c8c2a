import LexicalLisp.Proofs.Evaluation.Simulation
import LexicalLisp.Proofs.Frames.Bindings
import LexicalLisp.Proofs.Sessions.Course

/-!
# What a session answers

A session can be asked to evaluate texts, to list the expressions of a text, to look names up, and
to list the bindings and the names of its root. What it answers is what can be shown: of a closure
the parameters and the body (`Value.face`), of a fault everything, and of a binding also whether it
is a back reference.

Two sessions with the same operators answer alike if their roots stand in corresponding stores and
everything from the root on corresponds. Frames behind `n` others correspond to those of a store of
their own (`Correspondence.displace`); therefore a session that has started over answers like a new
one, whatever the store holds from before (`Course.answers_reset`).
-/

namespace LexicalLisp

open LexicalLisp.Action

/-! ## Questions and answers -/

/-- What can be seen of a value: a closure shows neither its place nor its frame. -/
def Value.face : Value → Value
  | closure c => closure ⟨⟨[], c.lambda.params, c.lambda.body⟩, 0⟩
  | v => v

theorem Value.shown_face (v : Value) :
    v.face.typeName = v.typeName ∧ v.face.isTrue = v.isTrue ∧ v.face.render = v.render ∧
      v.face.outline = v.outline := by
  cases v <;> exact ⟨rfl, rfl, rfl, rfl⟩

/-- What a session is asked. -/
inductive Request where
  /-- The value of a text. -/
  | evalString (source : String)
  /-- The results of the first items of a text. -/
  | forms (count : Nat) (source : String)
  /-- The expressions of a text. -/
  | parse (source : String)
  /-- The value of a name. -/
  | lookup (name : String)
  /-- The bindings of the root. -/
  | items
  /-- The names that resolve in the root. -/
  | keys

/-- What a session answers. -/
inductive Answer where
  /-- A value, or a fault. -/
  | value (result : Except Fault Value)
  /-- The results of items. -/
  | forms (results : List (Except Fault Value))
  /-- Expressions, or why there are none. -/
  | parsed (result : Except Cause (List Expr))
  /-- Names, whether their entries are back references, and values. -/
  | items (bindings : List (String × Bool × Value))
  /-- Names. -/
  | keys (names : List String)

/-- What a listing shows of an entry of a frame. -/
def Entry.face (f : FrameId) (entry : Entry) : Bool × Value := (entry.isOwn, (entry.toValue f).face)

/-- What a listing shows of a frame. -/
def Store.listing (s : Store) (f : FrameId) : List (String × Bool × Value) :=
  (s.items f).map fun binding ↦ (binding.1, binding.2.face f)

/-- The answer of a session. -/
def Session.answer (session : Session) (depth : Nat) : Request → Action Answer
  | .evalString source => do
    let result ← (session.evalString depth source).attempt
    return .value (result.map Value.face)
  | .forms count source => do
    let results ← session.firstForms depth count source
    return .forms (results.map (·.map Value.face))
  | .parse source => return .parsed (session.parse source)
  | .lookup name => do
    let result ← (session.lookup name).attempt
    return .value (result.map Value.face)
  | .items => do
    let bindings ← Action.inspect (·.listing session.root)
    return .items bindings
  | .keys => do
    let names ← Action.inspect (·.keys session.root)
    return .keys names

/-- What can be seen of a run: how it ended, and what its events show. -/
def Run.shown {α : Type} (r : Run α) :
    Except Fault α × List (Event.Level × String × List (String × String)) :=
  (r.result, r.events.map Event.shown)

/-- What can be seen when a session is asked one thing after another. -/
def Course.answers (c : Course) (depth : Nat) (requests : List Request) :
    Option (Except Fault (List Answer) ×
      List (Event.Level × String × List (String × String))) :=
  (requests.mapM (c.session.answer depth) c.store).map Run.shown

/-! ## Listings -/

namespace Correspondence

variable {R : Correspondence} {s s' : Store}

private theorem map_eq_map_of_forall₂ {α β γ : Type} {P : α → β → Prop} {f : α → γ} {g : β → γ}
    {l : List α} {l' : List β} (h : List.Forall₂ P l l') (hfg : ∀ a b, P a b → f a = g b) :
    l.map f = l'.map g := by
  induction h with
  | nil => rfl
  | cons hab _ ih => rw [List.map_cons, List.map_cons, hfg _ _ hab, ih]

theorem Values.face_eq (hR : R.KeepsTexts) {v v' : Value} (h : R.Values v v') :
    v'.face = v.face := by
  cases h with
  | integer | bool => rfl
  | quoted hd => rw [hR.payload_iff.mp hd]
  | closure f hl =>
    rw [Value.face, Value.face, hl.params, map_name_eq hR, hl.body.eq hR]

theorem Entries.face_eq (hR : R.KeepsTexts) {entry entry' : Entry} (h : R.Entries entry entry')
    (f : FrameId) : entry'.face (R.frame f) = entry.face f := by
  rw [Entry.face, Entry.face, (h.toValue f).face_eq hR]
  cases h <;> rfl

namespace Stores

variable (hR : R.KeepsTexts) (hvisible : ∀ n, R.visible n)

include hR hvisible

theorem forall₂_items (h : R.Stores s s') (f : FrameId) :
    List.Forall₂ (fun a b ↦ a.1 = b.1 ∧ R.Entries a.2 b.2) (s.items f) (s'.items (R.frame f)) := by
  refine Bindings.forall₂_toList fun name ↦ ?_
  have hentry := h.entries f name (hvisible name)
  rwa [hR.name_eq] at hentry

theorem listing_eq (h : R.Stores s s') (f : FrameId) : s.listing f = s'.listing (R.frame f) := by
  refine map_eq_map_of_forall₂ (h.forall₂_items hR hvisible f) fun a b ⟨hname, hentry⟩ ↦ ?_
  rw [hname, hentry.face_eq hR]

theorem names_eq (h : R.Stores s s') (f : FrameId) :
    (s.bindings f).names = (s'.bindings (R.frame f)).names :=
  map_eq_map_of_forall₂ (h.forall₂_items hR hvisible f) fun _ _ hab ↦ hab.1

theorem keys_eq (h : R.Stores s s') (f : FrameId) : s.keys f = s'.keys (R.frame f) := by
  rw [Store.keys, Store.keys, h.chain_eq, List.flatMap_map]
  simp only [← h.names_eq hR hvisible]

end Stores

/-! ## Sessions behind other frames -/

section Rules

variable {α β γ : Type} {V : α → β → Prop} {m : Action α} {m' : Action β}

theorem Alike.attempt (h : R.Alike V m m') : R.Alike (R.Results V) m.attempt m'.attempt := by
  intro s s' hs
  have hm := h s s' hs
  simp only [Action.attempt]
  generalize m s = x, m' s' = y at hm ⊢
  cases hm with
  | none => exact .none
  | some hr => exact .some ⟨.ok hr.result, hr.store, hr.events⟩

theorem alike_inspect {view : Store → α} {view' : Store → β}
    (h : ∀ s s', R.Stores s s' → V (view s) (view' s')) :
    R.Alike V (Action.inspect view) (Action.inspect view') :=
  fun s s' hs ↦ .some ⟨.ok (h s s' hs), hs, .nil⟩

theorem alike_mapM {l : List γ} {k : γ → Action α} {k' : γ → Action β}
    (h : ∀ a ∈ l, R.Alike V (k a) (k' a)) :
    R.Alike (List.Forall₂ V) (l.mapM k) (l.mapM k') := by
  induction l with
  | nil => exact alike_pure .nil
  | cons a l ih =>
    rw [List.mapM_cons, List.mapM_cons]
    refine (h a List.mem_cons_self).bind fun v v' hv ↦ ?_
    exact (ih fun b hb ↦ h b (List.mem_cons_of_mem a hb)).bind fun vs vs' hvs ↦
      alike_pure (.cons hv hvs)

end Rules

/-- The second store has `n` further frames in front. The places of forms need not be the same, for
their numbers are not. -/
def displace (n : Nat) : Correspondence where
  frame f := f + n
  frame_lt := Nat.add_lt_add_iff_right
  site _ _ := True
  site_cons _ _ := trivial
  name := id
  name_inj h := h
  visible _ := True
  payload := (· = ·)
  defect := (· = ·)

theorem displace_keepsTexts (n : Nat) : (displace n).KeepsTexts := ⟨fun _ ↦ rfl, Iff.rfl, Iff.rfl⟩

theorem displace_visible (n : Nat) (name : String) : (displace n).visible name := trivial

/-- Nothing is in the way of frames behind all others. -/
theorem displace_stores (s : Store) : (displace s.frames.size).Stores .empty s where
  frame_size k := by
    change 0 + k + s.frames.size = s.frames.size + k
    rw [Nat.zero_add, Nat.add_comm]
  parent f := Store.parent?_of_size_le (Nat.le_add_left _ _)
  entries f name _ := by
    change Option.Rel _ ((Store.empty.bindings f).get? name) ((s.bindings (f + _)).get? name)
    rw [Store.bindings_of_size_le (Nat.zero_le f), Store.bindings_of_size_le (Nat.le_add_left _ _)]
    exact .none

end Correspondence

/-- The session with its root behind `n` further frames. -/
def Session.displace (session : Session) (n : Nat) : Session :=
  ⟨session.operators, session.root + n⟩

namespace Correspondence

variable {n : Nat} {session : Session}

theorem alike_evalForm (depth : Nat) {form form' : Form} (h : form'.expr = form.expr) :
    (displace n).Alike (displace n).Values (session.evalForm depth form)
      ((session.displace n).evalForm depth form') := by
  have hexpr : (displace n).Exprs form.expr form'.expr :=
    h ▸ exprs_refl (displace_keepsTexts n) fun name _ ↦ displace_visible n name
  exact (alike_emit (.evaluating hexpr)).bind fun _ _ _ ↦
    eval_alike depth trivial session.root hexpr

theorem causes_static {R : Correspondence} {cause : Cause} (h : cause.Static) :
    R.Causes cause cause := by
  cases h with
  | unreadable error => exact .unreadable error
  | malformed defect => exact .malformed defect

theorem results_buildItem (item : Except ReadError Datum) :
    (displace n).Results (· = ·) ((session.buildItem item).mapError .ofCause)
      (((session.displace n).buildItem item).mapError .ofCause) := by
  change (displace n).Results _ _ ((session.buildItem item).mapError .ofCause)
  cases hbuild : session.buildItem item with
  | ok e => exact .ok rfl
  | error cause => exact .error ⟨causes_static (Session.static_of_buildItem hbuild), .nil⟩

theorem alike_enter (e : Expr) :
    (displace n).Alike (fun form form' ↦ form'.expr = form.expr) (Session.enter e)
      (Session.enter e) :=
  fun _ _ hs ↦ .some ⟨.ok rfl, ⟨hs.frame_size, hs.parent, hs.entries⟩, .nil⟩

theorem alike_evalItem (depth : Nat) (item : Except ReadError Datum) :
    (displace n).Alike (displace n).Values (session.evalItem depth item)
      ((session.displace n).evalItem depth item) := by
  refine (alike_ofExcept (results_buildItem item)).bind fun e e' he ↦ ?_
  subst he
  exact (alike_enter e).bind fun form form' hform ↦ alike_evalForm depth hform

theorem alike_evalItems (depth : Nat) {last last' : Option Value}
    (hlast : Option.Rel (displace n).Values last last') (items : List (Except ReadError Datum)) :
    (displace n).Alike (displace n).Values (session.evalItems depth last items)
      ((session.displace n).evalItems depth last' items) := by
  induction items generalizing last last' with
  | nil =>
    cases hlast with
    | none => exact alike_fail ⟨.unreadable _, .nil⟩
    | some hv => exact alike_pure hv
  | cons item items ih => exact (alike_evalItem depth item).bind fun v v' hv ↦ ih (.some hv)

theorem alike_evalEach (depth : Nat) (items : List (Except ReadError Datum)) :
    (displace n).Alike (List.Forall₂ ((displace n).Results (displace n).Values))
      (session.evalEach depth items) ((session.displace n).evalEach depth items) := by
  induction items with
  | nil => exact alike_pure .nil
  | cons item items ih =>
    exact (alike_evalItem depth item).attempt.bind fun result result' hresult ↦
      ih.bind fun results results' hresults ↦ alike_pure (.cons hresult hresults)

theorem Results.face_eq {R : Correspondence} (hR : R.KeepsTexts) {x y : Except Fault Value}
    (h : R.Results R.Values x y) : x.map Value.face = y.map Value.face := by
  cases h with
  | ok hv => exact congrArg Except.ok (hv.face_eq hR).symm
  | error hx => rw [hx.eq hR]

/-- **A session answers alike behind other frames.** -/
theorem alike_answer (depth : Nat) (request : Request) :
    (displace n).Alike (· = ·) (session.answer depth request)
      ((session.displace n).answer depth request) := by
  have hR := displace_keepsTexts n
  cases request with
  | evalString source =>
    refine (alike_evalItems depth .none _).attempt.bind fun result result' h ↦ alike_pure ?_
    rw [h.face_eq hR]
  | forms count source =>
    refine (alike_evalEach depth _).bind fun results results' h ↦ alike_pure ?_
    exact congrArg Answer.forms (map_eq_map_of_forall₂ h fun _ _ hresult ↦ hresult.face_eq hR)
  | parse source => exact alike_pure rfl
  | lookup name =>
    have hlookup : (displace n).Alike (displace n).Values (session.lookup name)
        ((session.displace n).lookup name) := alike_lookup session.root trivial
    refine hlookup.attempt.bind fun result result' h ↦ alike_pure ?_
    rw [h.face_eq hR]
  | items =>
    have hlisting : (displace n).Alike (· = ·) (Action.inspect (·.listing session.root))
        (Action.inspect (·.listing (session.displace n).root)) :=
      alike_inspect fun s s' hs ↦ hs.listing_eq hR (displace_visible n) session.root
    exact hlisting.bind fun _ _ h ↦ alike_pure (congrArg Answer.items h)
  | keys =>
    have hkeys : (displace n).Alike (· = ·) (Action.inspect (·.keys session.root))
        (Action.inspect (·.keys (session.displace n).root)) :=
      alike_inspect fun s s' hs ↦ hs.keys_eq hR (displace_visible n) session.root
    exact hkeys.bind fun _ _ h ↦ alike_pure (congrArg Answer.keys h)

theorem Runs.shown_eq {R : Correspondence} (hR : R.KeepsTexts) {α : Type} {r r' : Run α}
    (h : R.Runs (· = ·) r r') : r.shown = r'.shown := by
  obtain ⟨result, s, es⟩ := r
  obtain ⟨result', s', es'⟩ := r'
  obtain ⟨hresult, -, hes⟩ := h
  rw [Run.shown, Run.shown, map_shown_eq hR hes]
  cases hresult with
  | ok h => rw [h]
  | error hx => rw [hx.eq hR]

end Correspondence

open Correspondence

/-- **After starting over, a session answers like a new one.** -/
theorem Course.answers_reset (c : Course) (depth : Nat) (requests : List Request) :
    c.reset.answers depth requests = (start c.session.operators).answers depth requests := by
  let n := c.store.frames.size
  let new := start c.session.operators
  have hsession : c.reset.session = new.session.displace n :=
    congrArg (Session.mk c.session.operators) (Nat.zero_add n).symm
  -- the two roots are the first frames that correspond
  have hs : (displace n).Stores new.store c.reset.store := (displace_stores c.store).newFrame none
  have halike : (displace n).Alike (List.Forall₂ (· = ·)) (requests.mapM (new.session.answer depth))
      (requests.mapM ((new.session.displace n).answer depth)) :=
    alike_mapM fun request _ ↦ alike_answer depth request
  have hruns := halike _ _ hs
  rw [List.forall₂_eq_eq_eq] at hruns
  rw [answers, answers, hsession]
  generalize requests.mapM (new.session.answer depth) new.store = x,
    requests.mapM ((new.session.displace n).answer depth) c.reset.store = y at hruns ⊢
  cases hruns with
  | none => rfl
  | some hr => exact congrArg some (hr.shown_eq (displace_keepsTexts n)).symm

end LexicalLisp
