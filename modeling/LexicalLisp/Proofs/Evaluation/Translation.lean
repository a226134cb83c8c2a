import LexicalLisp.Event
import LexicalLisp.Proofs.Frames.Bindings

/-!
# Other names and other quoted data

A `Translation` puts other names in the place of names, each name in the place of exactly one, and
other data in the place of quoted ones. It acts on whatever a run is made of: on expressions, on the
values that these have, and on the store, whose frames then bind other names to other values.

Numbers of frames, sites of lambdas, integers, truth values and operators stay as they are. In a
frame only the order of the bindings is not that of the originals, since it is the order of the
names.
-/

namespace LexicalLisp

/-- What is put in the place of names and of quoted data. -/
structure Translation where
  /-- The other name for a name. -/
  name : Equiv.Perm String
  /-- The other datum for a quoted one. -/
  quoted : Datum → Datum
  /-- The other items for those of a list that stands as a literal, and has no value. -/
  items : List Datum → List Datum

namespace Translation

/-- Everything stays as it is. -/
def refl : Translation := ⟨Equiv.refl String, id, id⟩

/-- The other datum for a literal. -/
def literal (t : Translation) : Datum → Datum
  | .integer value => .integer value
  | .bool value => .bool value
  | .quote d => .quote (t.quoted d)
  | .symbol name => .symbol (t.name name)
  | .list ds => .list (t.items ds)

theorem literal_refl (d : Datum) : refl.literal d = d := by
  cases d <;> rfl

end Translation

/-! ## Expressions -/

namespace Expr

mutual

/-- The expression with other names and other quoted data. -/
def translate (t : Translation) : Expr → Expr
  | .literal d => .literal (t.literal d)
  | .symbol name => .symbol (t.name name)
  | .definition name value => .definition (t.name name) (translate t value)
  | .conditional test yes no =>
    .conditional (translate t test) (translate t yes) (translate t no)
  | .binary op left right => .binary op (translate t left) (translate t right)
  | .lambda params body => .lambda (params.map t.name) (translate t body)
  | .call callee args => .call (translate t callee) (translateAll t args)

/-- The expressions of a list with other names and other quoted data. -/
def translateAll (t : Translation) : List Expr → List Expr
  | [] => []
  | e :: rest => translate t e :: translateAll t rest

end

theorem translateAll_eq_map (t : Translation) (es : List Expr) :
    translateAll t es = es.map (translate t) := by
  induction es with
  | nil => rfl
  | cons e es ih => rw [translateAll, List.map_cons, ih]

theorem translate_refl (e : Expr) : e.translate .refl = e := by
  induction e with
  | literal d => rw [translate, Translation.literal_refl]
  | symbol name => rfl
  | definition name value ih =>
    rw [translate, ih]
    rfl
  | conditional test yes no ihtest ihyes ihno => rw [translate, ihtest, ihyes, ihno]
  | binary op left right ihleft ihright => rw [translate, ihleft, ihright]
  | lambda params body ih =>
    rw [translate, ih]
    exact congrArg (Expr.lambda · body) (List.map_id params)
  | call callee args ih ihs =>
    rw [translate, ih, translateAll_eq_map, List.map_congr_left ihs, List.map_id']

end Expr

/-! ## Values and stores -/

/-- The lambda with other names and other quoted data, at the same place. -/
def Lambda.translate (t : Translation) (l : Lambda) : Lambda :=
  ⟨l.site, l.params.map t.name, l.body.translate t⟩

/-- The value with other names and other quoted data. -/
def Value.translate (t : Translation) : Value → Value
  | integer value => integer value
  | bool value => bool value
  | quoted d => quoted (t.quoted d)
  | closure c => closure ⟨c.lambda.translate t, c.frame⟩

/-- The event with other names and other quoted data. -/
def Event.translate (t : Translation) : Event → Event
  | evaluating form => evaluating (form.translate t)
  | call c count => call ⟨c.lambda.translate t, c.frame⟩ count
  | bind name v => bind (t.name name) (v.translate t)
  | reset => reset

/-- The entry with other names and other quoted data. -/
def Entry.translate (t : Translation) : Entry → Entry
  | value v => value (v.translate t)
  | own l => own (l.translate t)

theorem Lambda.translate_refl (l : Lambda) : l.translate .refl = l := by
  obtain ⟨site, params, body⟩ := l
  rw [translate, body.translate_refl, Lambda.mk.injEq]
  exact ⟨rfl, List.map_id params, rfl⟩

theorem Value.translate_refl (v : Value) : v.translate .refl = v := by
  cases v with
  | integer | bool | quoted => rfl
  | closure c => rw [translate, c.lambda.translate_refl]

theorem Event.translate_refl (event : Event) : event.translate .refl = event := by
  cases event with
  | evaluating form => rw [translate, form.translate_refl]
  | call c count => rw [translate, c.lambda.translate_refl]
  | bind name v =>
    rw [translate, v.translate_refl]
    rfl
  | reset => rfl

theorem Entry.translate_refl (entry : Entry) : entry.translate .refl = entry := by
  cases entry with
  | value v => rw [translate, v.translate_refl]
  | own l => rw [translate, l.translate_refl]

/-- The frame with other names and other quoted data. -/
def Frame.translate (t : Translation) (frame : Frame) : Frame :=
  ⟨frame.parent, frame.bindings.transport t.name (Entry.translate t)⟩

namespace Store

/-- The store with other names and other quoted data. -/
def translate (t : Translation) (s : Store) : Store := ⟨s.frames.map (Frame.translate t), s.forms⟩

variable (t : Translation) (s : Store)

theorem size_translate : (s.translate t).frames.size = s.frames.size := Array.size_map

theorem parent?_translate (f : FrameId) : (s.translate t).parent? f = s.parent? f := by
  rw [parent?, parent?, translate, Array.getElem?_map]
  cases s.frames[f]? <;> rfl

theorem bindings_translate (f : FrameId) :
    (s.translate t).bindings f = (s.bindings f).transport t.name (Entry.translate t) := by
  rw [bindings, bindings, translate, Array.getElem?_map]
  cases s.frames[f]? <;> rfl

theorem get?_translate (f : FrameId) (name : String) :
    ((s.translate t).bindings f).get? (t.name name) =
      ((s.bindings f).get? name).map (Entry.translate t) := by
  rw [bindings_translate, Bindings.get?_transport]

variable {t s}

/-- A store is determined by what it binds the other names to. -/
theorem eq_translate {s' : Store} (hsize : s'.frames.size = s.frames.size)
    (hparent : ∀ f, s'.parent? f = s.parent? f)
    (hget : ∀ f name, (s'.bindings f).get? (t.name name) =
      ((s.bindings f).get? name).map (Entry.translate t))
    (hforms : s'.forms = s.forms) : s' = s.translate t := by
  refine ext_bindings (hsize.trans (s.size_translate t).symm) (fun f ↦ ?_) (fun f ↦ ?_) hforms
  · rw [hparent, parent?_translate]
  · rw [bindings_translate, Bindings.eq_transport (hget f)]

end Store

end LexicalLisp
