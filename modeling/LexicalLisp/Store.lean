import LexicalLisp.Bindings
import LexicalLisp.Value

/-!
# The store of frames

Evaluation reads and writes frames, and closures share them, so all frames live in one store and
are known by number. A frame binds names and may have a parent, fixed when the frame is made; a
name is looked up in the frame and then in its ancestors. Frames are never removed.

A new frame gets the next free number, so a parent is always older than its child and every chain
of frames ends. `Store.chain` follows a link only to an older frame and therefore needs no
assumption on the store.

A closure stored in the very frame that it captured is kept as a back reference, `Entry.own`: its
frame is the one that is being looked at. Reading an entry back gives what was stored
(`Entry.toValue_of`).

The store also counts the forms that have entered the session, for the sites of lambdas.
-/

namespace LexicalLisp

/-- What a name is bound to in a frame. -/
inductive Entry where
  /-- A value. -/
  | value (v : Value)
  /-- A closure that captured the frame it is stored in. -/
  | own (lambda : Lambda)
deriving DecidableEq

namespace Entry

/-- The entry for a value stored in a frame. -/
def of (f : FrameId) : Value → Entry
  | .closure c => if c.frame = f then own c.lambda else value (.closure c)
  | v => value v

/-- The value of an entry found in a frame. -/
def toValue (f : FrameId) : Entry → Value
  | value v => v
  | own lambda => .closure ⟨lambda, f⟩

/-- Whether an entry is a back reference. -/
def isOwn : Entry → Bool
  | value _ => false
  | own _ => true

@[simp] theorem toValue_of (f : FrameId) (v : Value) : (of f v).toValue f = v := by
  cases v with
  | closure c =>
    by_cases h : c.frame = f
    · subst h
      simp [of, toValue]
    · simp [of, toValue, h]
  | _ => rfl

/-- Back references are the closures that captured the frame, and nothing else. -/
theorem isOwn_of (f : FrameId) (v : Value) :
    (of f v).isOwn = true ↔ ∃ lambda, v = .closure ⟨lambda, f⟩ := by
  cases v with
  | closure c =>
    obtain ⟨lambda, g⟩ := c
    by_cases h : g = f <;> simp [of, isOwn, h]
  | _ => simp [of, isOwn]

end Entry

/-- One level of the scope. -/
structure Frame where
  /-- The enclosing frame. -/
  parent : Option FrameId
  /-- The bindings of this level. -/
  bindings : Bindings Entry

instance : Inhabited Frame := ⟨⟨none, .empty⟩⟩

/-- All frames, and the number of forms that have entered the session. -/
structure Store where
  /-- The frames by number. -/
  frames : Array Frame
  /-- The next number of a form. -/
  forms : Nat

namespace Store

/-- The store without frames. -/
def empty : Store := ⟨#[], 0⟩

/-- Makes a frame without bindings; gives its number. -/
def newFrame (s : Store) (parent : Option FrameId) : FrameId × Store :=
  (s.frames.size, { s with frames := s.frames.push ⟨parent, .empty⟩ })

/-- Takes the next number of a form. -/
def newForm (s : Store) : Nat × Store := (s.forms, { s with forms := s.forms + 1 })

/-- Binds a name in a frame. Only this frame changes. -/
def bind (s : Store) (f : FrameId) (name : String) (v : Value) : Store :=
  { s with
    frames := s.frames.modify f fun frame ↦
      { frame with bindings := frame.bindings.insert name (Entry.of f v) } }

/-- The bindings of a frame alone; a number without a frame has none. -/
def bindings (s : Store) (f : FrameId) : Bindings Entry :=
  (s.frames[f]?.map Frame.bindings).getD .empty

/-- The parent of a frame. -/
def parent? (s : Store) (f : FrameId) : Option FrameId := s.frames[f]?.bind Frame.parent

/-- The value of a name in a frame alone. -/
def local? (s : Store) (f : FrameId) (name : String) : Option Value :=
  ((s.bindings f).get? name).map (Entry.toValue f)

/-- A frame and its ancestors, nearest first. -/
def chain (s : Store) (f : FrameId) : List FrameId :=
  match s.parent? f with
  | none => [f]
  | some p => if p < f then f :: s.chain p else [f]

/-- The value of a name in the nearest frame that binds it. -/
def lookup? (s : Store) (f : FrameId) (name : String) : Option Value :=
  (s.chain f).findSome? fun g ↦ s.local? g name

/-- The names bound in a frame and its ancestors, ascending; a name counts once for each frame
that binds it. -/
def keys (s : Store) (f : FrameId) : List String :=
  ((s.chain f).flatMap fun g ↦ (s.bindings g).names).mergeSort fun a b ↦ decide (a ≤ b)

/-- The entries of a frame, by ascending names. -/
def items (s : Store) (f : FrameId) : List (String × Entry) := (s.bindings f).toList

/-! ## What the operations change -/

theorem parent?_of_size_le {s : Store} {f : FrameId} (h : s.frames.size ≤ f) :
    s.parent? f = none := by
  rw [parent?, Array.getElem?_eq_none h, Option.bind_none]

theorem bindings_of_size_le {s : Store} {f : FrameId} (h : s.frames.size ≤ f) :
    s.bindings f = .empty := by
  rw [bindings, Array.getElem?_eq_none h]
  rfl

theorem local?_of_size_le {s : Store} {f : FrameId} (h : s.frames.size ≤ f) (name : String) :
    s.local? f name = none := by
  rw [local?, bindings_of_size_le h]
  rfl

theorem local?_of_get? {s : Store} {f : FrameId} {name : String} {entry : Entry}
    (h : (s.bindings f).get? name = some entry) : s.local? f name = some (entry.toValue f) := by
  rw [local?, h, Option.map_some]

@[simp] theorem size_newFrame (s : Store) (parent : Option FrameId) :
    (s.newFrame parent).2.frames.size = s.frames.size + 1 := by
  simp [newFrame]

@[simp] theorem bindings_newFrame (s : Store) (parent : Option FrameId) (f : FrameId) :
    (s.newFrame parent).2.bindings f = s.bindings f := by
  simp only [bindings, newFrame, Array.getElem?_push]
  split
  · rename_i h
    simp [h]
  · rfl

theorem parent?_newFrame (s : Store) (parent : Option FrameId) (f : FrameId) :
    (s.newFrame parent).2.parent? f = if f = s.frames.size then parent else s.parent? f := by
  simp only [parent?, newFrame, Array.getElem?_push]
  split <;> rfl

@[simp] theorem size_bind (s : Store) (f : FrameId) (name : String) (v : Value) :
    (s.bind f name v).frames.size = s.frames.size := by
  simp [bind]

@[simp] theorem parent?_bind (s : Store) (f g : FrameId) (name : String) (v : Value) :
    (s.bind f name v).parent? g = s.parent? g := by
  simp only [parent?, bind, Array.getElem?_modify]
  split
  · cases s.frames[g]? <;> rfl
  · rfl

theorem bindings_bind_self (s : Store) {f : FrameId} (hf : f < s.frames.size) (name : String)
    (v : Value) : (s.bind f name v).bindings f = (s.bindings f).insert name (Entry.of f v) := by
  simp only [bindings, bind, Array.getElem?_modify, if_true, Array.getElem?_eq_getElem hf]
  rfl

theorem bindings_bind_of_ne (s : Store) {f g : FrameId} (h : g ≠ f) (name : String) (v : Value) :
    (s.bind f name v).bindings g = s.bindings g := by
  simp [bindings, bind, Array.getElem?_modify, Ne.symm h]

theorem frames_newFrame_of_lt (s : Store) (parent : Option FrameId) {g : FrameId}
    (h : g < s.frames.size) : (s.newFrame parent).2.frames[g]? = s.frames[g]? := by
  simp [newFrame, Array.getElem?_push, Nat.ne_of_lt h]

theorem frames_bind_of_ne (s : Store) {f g : FrameId} (h : g ≠ f) (name : String) (v : Value) :
    (s.bind f name v).frames[g]? = s.frames[g]? := by
  simp [bind, Array.getElem?_modify, Ne.symm h]

@[simp] theorem local?_newFrame (s : Store) (parent : Option FrameId) (f : FrameId)
    (name : String) : (s.newFrame parent).2.local? f name = s.local? f name := by
  rw [local?, bindings_newFrame, local?]

theorem bind_of_size_le (s : Store) {f : FrameId} (hf : s.frames.size ≤ f) (name : String)
    (v : Value) : s.bind f name v = s := by
  have hframes : (s.bind f name v).frames = s.frames := by
    refine Array.ext_getElem? fun g ↦ ?_
    by_cases hg : g = f
    · subst hg
      rw [Array.getElem?_eq_none hf, Array.getElem?_eq_none (by simpa using hf)]
    · exact s.frames_bind_of_ne hg name v
  cases s
  exact congrArg (Store.mk · _) hframes

theorem local?_bind (s : Store) (f g : FrameId) (name other : String) (v : Value) :
    (s.bind f name v).local? g other =
      if f < s.frames.size ∧ g = f ∧ other = name then some v else s.local? g other := by
  by_cases hf : f < s.frames.size
  · by_cases hg : g = f
    · subst hg
      by_cases hname : other = name
      · subst hname
        simp [local?, bindings_bind_self s hf, hf]
      · simp [local?, bindings_bind_self s hf, Bindings.get?_insert_of_ne _ hname, hname]
    · simp [local?, bindings_bind_of_ne s hg, hg]
  · rw [bind_of_size_le s (Nat.not_lt.mp hf), if_neg fun h ↦ hf h.1]

/-- After a binding, a bound value is the new one, or it was bound before. -/
theorem eq_or_local?_of_bind {s : Store} {f g : FrameId} {name other : String} {v w : Value}
    (h : (s.bind f name v).local? g other = some w) : w = v ∨ s.local? g other = some w := by
  rw [local?_bind] at h
  split at h
  · exact .inl (Option.some.inj h).symm
  · exact .inr h

theorem mem_chain_self (s : Store) (f : FrameId) : f ∈ s.chain f := by
  rw [chain]
  split
  · simp
  · split <;> simp

theorem le_of_mem_chain {s : Store} {f g : FrameId} (h : g ∈ s.chain f) : g ≤ f := by
  fun_induction s.chain f with
  | case1 f hp => exact Nat.le_of_eq (List.mem_singleton.1 h)
  | case2 f p hp hlt ih =>
    rcases List.mem_cons.1 h with rfl | h
    · exact Nat.le_refl _
    · exact Nat.le_of_lt (Nat.lt_of_le_of_lt (ih h) hlt)
  | case3 f p hp hlt => exact Nat.le_of_eq (List.mem_singleton.1 h)

theorem exists_local?_of_lookup? {s : Store} {f : FrameId} {name : String} {v : Value}
    (h : s.lookup? f name = some v) : ∃ g, s.local? g name = some v := by
  obtain ⟨g, -, hg⟩ := List.exists_of_findSome?_eq_some h
  exact ⟨g, hg⟩

end Store

end LexicalLisp
