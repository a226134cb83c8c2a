import LexicalLisp.Proofs.Evaluation.Correspondence

/-!
# Correspondences in place

Two runs may go through the same frames and the same places and differ only in names, in quoted data
and in what is bound to names that are not visible. What can be seen on the second side is then a
translation of what can be seen on the first (`Translation.correspondence`).

Nothing is known about names that are not visible. So a visible name may be bound to a closure only
if the closure refers to visible names itself (`Store.RefersOnlyTo`).
-/

namespace LexicalLisp

/-- The closures under visible names refer to visible names only. -/
def Store.RefersOnlyTo (visible : String → Prop) (s : Store) : Prop :=
  ∀ f name c, visible name → s.local? f name = some (.closure c) →
    ∀ n ∈ c.lambda.body.references, visible n

namespace Translation

open Correspondence

variable (t : Translation) (visible : String → Prop)

/-- The second side has other names and other quoted data, and may differ in what is bound to names
that are not visible. -/
def correspondence : Correspondence :=
  { same with
    name := t.name
    name_inj h := t.name.injective h
    visible
    payload d d' := d' = t.quoted d
    defect d d' := d' = t.literal d }

variable {t visible}

theorem correspondence_translates : (t.correspondence visible).Translates t :=
  ⟨fun _ ↦ rfl, Iff.rfl, Iff.rfl⟩

/-! ## From the first side to the second -/

theorem lambdas_self {l : Lambda} (h : ∀ n ∈ l.body.references, visible n) :
    (t.correspondence visible).Lambdas l (l.translate t) :=
  ⟨rfl, rfl, exprs_translate correspondence_translates h⟩

/-- A value corresponds to its translation, unless it is a closure that refers to other names. -/
theorem values_self {v : Value}
    (h : ∀ c, v = .closure c → ∀ n ∈ c.lambda.body.references, visible n) :
    (t.correspondence visible).Values v (v.translate t) := by
  cases v with
  | integer value => exact .integer value
  | bool value => exact .bool value
  | quoted d => exact .quoted rfl
  | closure c => exact .closure c.frame (lambdas_self (h c rfl))

private theorem entries_self {f : FrameId} {entry : Entry}
    (h : ∀ c, entry.toValue f = .closure c → ∀ n ∈ c.lambda.body.references, visible n) :
    (t.correspondence visible).Entries entry (entry.translate t) := by
  cases entry with
  | own l => exact .own (lambdas_self (h _ rfl))
  | value v => exact .value (values_self h)

/-- Stores correspond that have the same frames, if the other names of visible names are bound to
the translated entries. -/
theorem stores_of {s s' : Store} (hs : s.RefersOnlyTo visible)
    (hsize : s'.frames.size = s.frames.size) (hparent : ∀ f, s'.parent? f = s.parent? f)
    (hget : ∀ f name, visible name → (s'.bindings f).get? (t.name name) =
      ((s.bindings f).get? name).map (Entry.translate t)) :
    (t.correspondence visible).Stores s s' where
  frame_size k := congrArg (· + k) hsize.symm
  parent f := (hparent f).trans Option.map_id'.symm
  entries f name hname := by
    change Option.Rel _ _ ((s'.bindings f).get? (t.name name))
    rw [hget f name hname]
    cases hentry : (s.bindings f).get? name with
    | none => exact .none
    | some entry =>
      refine .some (entries_self (f := f) fun c hc ↦ hs f name c hname ?_)
      rw [Store.local?_of_get? hentry, hc]

/-! ## From the second side back -/

private theorem lambdas_eq {l l' : Lambda} (h : (t.correspondence visible).Lambdas l l') :
    l' = l.translate t := h.eq_translate correspondence_translates h.site

theorem values_eq {v v' : Value} (h : (t.correspondence visible).Values v v') :
    v' = v.translate t := by
  cases h with
  | integer | bool => rfl
  | quoted hd =>
    cases hd
    rfl
  | closure f hl =>
    rw [lambdas_eq hl]
    rfl

private theorem entries_eq {entry entry' : Entry}
    (h : (t.correspondence visible).Entries entry entry') : entry' = entry.translate t := by
  cases h with
  | value hv => rw [values_eq hv, Entry.translate]
  | own hl => rw [lambdas_eq hl, Entry.translate]

private theorem events_eq {event event' : Event}
    (h : (t.correspondence visible).Events event event') : event' = event.translate t := by
  cases h with
  | evaluating he => rw [he.eq_translate correspondence_translates, Event.translate]
  | call count hc => rw [Value.closure.inj (values_eq hc), Event.translate]
  | bind n hv =>
    rw [values_eq hv, Event.translate]
    rfl

theorem map_events_eq {es es' : List Event}
    (h : List.Forall₂ (t.correspondence visible).Events es es') :
    es' = es.map (Event.translate t) :=
  eq_map_of_forall₂ h fun _ _ _ he ↦ events_eq he

section Stores

variable {s s' : Store} (h : (t.correspondence visible).Stores s s')

include h

theorem size_eq : s'.frames.size = s.frames.size := (h.frame_size 0).symm

theorem parent?_eq (f : FrameId) : s'.parent? f = s.parent? f := (h.parent f).trans Option.map_id'

theorem get?_eq (f : FrameId) {name : String} (hname : visible name) :
    (s'.bindings f).get? (t.name name) =
      ((s.bindings f).get? name).map (Entry.translate t) := by
  have hentry := h.entries f name hname
  change Option.Rel _ _ ((s'.bindings f).get? (t.name name)) at hentry
  generalize (s.bindings f).get? name = x, (s'.bindings f).get? (t.name name) = y at hentry ⊢
  cases hentry with
  | none => rfl
  | some he => rw [entries_eq he, Option.map_some]

end Stores

end Translation

end LexicalLisp
