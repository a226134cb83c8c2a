import LexicalLisp.Event
import LexicalLisp.Fault
import LexicalLisp.Store

/-!
# Actions on the store

Evaluating a form changes the store, emits events, and ends with a value or a fault; and it may not
end at all. An `Action` is a function from the store before to a `Run`, which holds all three, or
to `none`. The value `none` is no behaviour of a program: it says that the depth allowed for the
evaluation was too small to tell. What a fault leaves behind is kept, since a form that fails may
have bound names before.

Actions are put together in sequence: the second begins in the store that the first left, its
events come after those of the first, and it does not begin if the first ended in a fault.
-/

namespace LexicalLisp

/-- What a finished action leaves behind. -/
structure Run (α : Type) where
  /-- How it ended. -/
  result : Except Fault α
  /-- The store at its end. -/
  store : Store
  /-- What happened, in order. -/
  events : List Event

/-- A computation on the store, if the depth allowed for it suffices. -/
def Action (α : Type) : Type := Store → Option (Run α)

namespace Action

variable {α β : Type}

/-- Does nothing and gives a value. -/
@[inline] protected def pure (a : α) : Action α := fun s ↦ some ⟨.ok a, s, []⟩

/-- Does one thing, and then another that depends on its value. -/
@[inline] protected def bind (m : Action α) (k : α → Action β) : Action β := fun s ↦
  match m s with
  | none => none
  | some ⟨.error fault, s', es⟩ => some ⟨.error fault, s', es⟩
  | some ⟨.ok a, s', es⟩ =>
    match k a s' with
    | none => none
    | some r => some { r with events := es ++ r.events }

instance : Monad Action where
  pure := Action.pure
  bind := Action.bind

/-- The two laws of sequencing: doing nothing first or last makes no difference, and a sequence of
three can be bracketed either way. -/
instance : LawfulMonad Action := LawfulMonad.mk' Action
  (fun m ↦ by
    funext s
    change Action.bind m (fun a ↦ Action.pure (id a)) s = m s
    rcases h : m s with _ | ⟨_ | _, s', es⟩ <;> simp [Action.bind, Action.pure, h])
  (fun a k ↦ by
    funext s
    change Action.bind (Action.pure a) k s = k a s
    rcases h : k a s with _ | r <;> simp [Action.bind, Action.pure, h])
  (fun m k l ↦ by
    funext s
    change Action.bind (Action.bind m k) l s = Action.bind m (fun a ↦ Action.bind (k a) l) s
    rcases h : m s with _ | ⟨_ | a, s', es⟩
    · simp [Action.bind, h]
    · simp [Action.bind, h]
    · rcases h' : k a s' with _ | ⟨_ | b, s'', es'⟩
      · simp [Action.bind, h, h']
      · simp [Action.bind, h, h']
      · rcases h'' : l b s'' with _ | r <;> simp [Action.bind, h, h', h''])

/-- A finished sequence either failed in its first part or ran both. -/
theorem bind_eq_some_iff {m : Action α} {k : α → Action β} {s : Store} {r : Run β} :
    (m >>= k) s = some r ↔
      (∃ fault, m s = some ⟨.error fault, r.store, r.events⟩ ∧ r.result = .error fault) ∨
      ∃ a s' es r', m s = some ⟨.ok a, s', es⟩ ∧ k a s' = some r' ∧
        r = { r' with events := es ++ r'.events } := by
  change Action.bind m k s = some r ↔ _
  rcases h : m s with _ | ⟨fault | a, s', es⟩
  · simp [Action.bind, h]
  · simp only [Action.bind, h, Option.some.injEq]
    constructor
    · rintro rfl
      exact .inl ⟨fault, rfl, rfl⟩
    · rintro (⟨fault', he, hr⟩ | ⟨a, s'', es', r', he, -⟩)
      · cases he
        cases r
        simp_all
      · cases he
  · rcases h' : k a s' with _ | r'
    · simp [Action.bind, h, h']
    · simp only [Action.bind, h, h', Option.some.injEq]
      constructor
      · rintro rfl
        exact .inr ⟨a, s', es, r', rfl, h', rfl⟩
      · rintro (⟨fault, he, -⟩ | ⟨a', s'', es'', r'', he, hk, rfl⟩)
        · cases he
        · cases he
          cases h'.symm.trans hk
          rfl

theorem bind_apply (m : Action α) (k : α → Action β) (s : Store) :
    (m >>= k) s = match m s with
      | none => none
      | some ⟨.error fault, s', es⟩ => some ⟨.error fault, s', es⟩
      | some ⟨.ok a, s', es⟩ => (k a s').map fun r ↦ { r with events := es ++ r.events } := by
  change Action.bind m k s = _
  rcases h : m s with _ | ⟨fault | a, s', es⟩
  · simp only [Action.bind, h]
  · simp only [Action.bind, h]
  · cases hk : k a s' <;> simp only [Action.bind, h, hk] <;> rfl

/-- Gives up: the depth does not suffice. -/
def unfinished : Action α := fun _ ↦ none

/-- Ends in a fault. -/
@[inline] def fail (fault : Fault) : Action α := fun s ↦ some ⟨.error fault, s, []⟩

/-- Ends as a computation without effects does. -/
@[inline] def ofExcept : Except Fault α → Action α
  | .ok a => Action.pure a
  | .error fault => fail fault

/-- Reads from the store. -/
@[inline] def inspect (view : Store → α) : Action α := fun s ↦ some ⟨.ok (view s), s, []⟩

/-- Changes the store. -/
@[inline] def update (change : Store → α × Store) : Action α := fun s ↦
  let (a, s') := change s
  some ⟨.ok a, s', []⟩

/-- Emits an event. -/
@[inline] def emit (event : Event) : Action Unit := fun s ↦ some ⟨.ok (), s, [event]⟩

/-- Adds the text of a form to the trail of a fault that leaves it. -/
@[inline] def within (form : Expr) (m : Action α) : Action α := fun s ↦
  match m s with
  | some ⟨.error fault, s', es⟩ => some ⟨.error (fault.inside form.render), s', es⟩
  | finished => finished

/-- Turns a fault into a value, so that what follows goes on after it. -/
@[inline] def attempt (m : Action α) : Action (Except Fault α) := fun s ↦
  match m s with
  | none => none
  | some ⟨result, s', es⟩ => some ⟨.ok result, s', es⟩

/-- Looks a name up in a frame and its ancestors. -/
def lookup (f : FrameId) (name : String) : Action Value := fun s ↦
  match s.lookup? f name with
  | some v => some ⟨.ok v, s, []⟩
  | none => some ⟨.error (.ofCause (.unbound name)), s, []⟩

/-- Binds a name in a frame. -/
def bindName (f : FrameId) (name : String) (v : Value) : Action Unit := do
  emit (.bind name v)
  update fun s ↦ ((), s.bind f name v)

/-- Binds names in a frame one after another. -/
def bindAll (f : FrameId) : List (String × Value) → Action Unit
  | [] => pure ()
  | (name, v) :: rest => do
    bindName f name v
    bindAll f rest

/-! ## Actions with different depths -/

/-- The second action ends as the first one does, wherever that one ends. -/
def Refines (m m' : Action α) : Prop := ∀ s r, m s = some r → m' s = some r

theorem Refines.refl (m : Action α) : Refines m m := fun _ _ h ↦ h

theorem Refines.trans {m₁ m₂ m₃ : Action α} (h : Refines m₁ m₂) (h' : Refines m₂ m₃) :
    Refines m₁ m₃ := fun s r hr ↦ h' s r (h s r hr)

theorem Refines.of_unfinished (m : Action α) : Refines unfinished m := by
  intro s r h
  cases h

theorem Refines.bind {m m' : Action α} {k k' : α → Action β} (h : Refines m m')
    (hk : ∀ a, Refines (k a) (k' a)) : Refines (m >>= k) (m' >>= k') := by
  intro s r hr
  rw [bind_eq_some_iff] at hr ⊢
  rcases hr with ⟨fault, hm, hf⟩ | ⟨a, s', es, r', hm, hr', rfl⟩
  · exact .inl ⟨fault, h _ _ hm, hf⟩
  · exact .inr ⟨a, s', es, r', h _ _ hm, hk a _ _ hr', rfl⟩

theorem Refines.within {m m' : Action α} (form : Expr) (h : Refines m m') :
    Refines (within form m) (within form m') := by
  intro s r hr
  rcases hm : m s with _ | r'
  · simp [Action.within, hm] at hr
  · simpa [Action.within, hm, h s r' hm] using hr

end Action

end LexicalLisp
