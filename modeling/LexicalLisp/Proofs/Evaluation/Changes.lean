import LexicalLisp.Eval

/-!
# The changes of a store, one by one

However deeply closures call each other, a store changes in three ways only: it gets a new frame,
it gives out the number of a form, or a name is bound in a frame that exists. `Store.Path` is a
sequence of such changes that leads from one store to another, with the log of the changes.

A path says everything about the later store in terms of the earlier one. Frames keep their parents
and their names (`Store.Path.parent?_eq`, `Store.Path.isSome_get?`), and a name has the entry of the
value that it was bound to last (`Store.Path.get?_eq`).

What an evaluation or a call does to the store is such a path, whether it ends in a value or in a
fault, and the bindings in its log are those that the events tell of, in the same order
(`eval_logs`, `Closure.run_logs`). So nothing is bound in silence.
-/

namespace LexicalLisp

/-- A single change of a store. -/
inductive Change where
  /-- A new frame. -/
  | newFrame (parent : Option FrameId)
  /-- A form gets its number. -/
  | newForm
  /-- A name is bound in a frame. -/
  | bind (frame : FrameId) (name : String) (value : Value)

/-- The name that a change binds, and its value. -/
def Change.binding? : Change → Option (String × Value)
  | bind _ name v => some (name, v)
  | newFrame _ | newForm => none

/-- The name whose binding an event tells of, and its value. -/
def Event.binding? : Event → Option (String × Value)
  | bind name v => some (name, v)
  | evaluating _ | call .. | reset => none

/-- The value that a change gives to a name in a frame. -/
def Change.valueFor? (f : FrameId) (name : String) : Change → Option Value
  | bind g other v => if g = f ∧ other = name then some v else none
  | newFrame _ | newForm => none

/-- The value that a name in a frame is bound to last. -/
def lastBound (log : List Change) (f : FrameId) (name : String) : Option Value :=
  log.reverse.findSome? (Change.valueFor? f name)

theorem lastBound_concat (log : List Change) (c : Change) (f : FrameId) (name : String) :
    lastBound (log ++ [c]) f name = (c.valueFor? f name).or (lastBound log f name) := by
  rw [lastBound, List.reverse_append, List.reverse_singleton, List.singleton_append,
    List.findSome?_cons, lastBound]
  cases c.valueFor? f name <;> rfl

namespace Store

/-- The changes lead from the first store to the second. A name is bound only in a frame that is
there. -/
inductive Path (s : Store) : List Change → Store → Prop
  | nil : Path s [] s
  | newFrame {log : List Change} {s' : Store} (h : Path s log s') (parent : Option FrameId) :
    Path s (log ++ [.newFrame parent]) (s'.newFrame parent).2
  | newForm {log : List Change} {s' : Store} (h : Path s log s') :
    Path s (log ++ [.newForm]) s'.newForm.2
  | bind {log : List Change} {s' : Store} (h : Path s log s') {f : FrameId}
    (hf : f < s'.frames.size) (name : String) (v : Value) :
    Path s (log ++ [.bind f name v]) (s'.bind f name v)

namespace Path

variable {s s' s'' : Store} {log log' : List Change}

theorem append (h : s.Path log s') (h' : s'.Path log' s'') : s.Path (log ++ log') s'' := by
  induction h' with
  | nil => rwa [List.append_nil]
  | newFrame _ parent ih =>
    rw [← List.append_assoc]
    exact ih.newFrame parent
  | newForm _ ih =>
    rw [← List.append_assoc]
    exact ih.newForm
  | bind _ hf name v ih =>
    rw [← List.append_assoc]
    exact ih.bind hf name v

theorem size_le (h : s.Path log s') : s.frames.size ≤ s'.frames.size := by
  induction h with
  | nil => exact Nat.le_refl _
  | newFrame _ parent ih =>
    rw [size_newFrame]
    exact Nat.le_succ_of_le ih
  | newForm _ ih => exact ih
  | bind _ hf name v ih => rwa [size_bind]

theorem parent?_eq (h : s.Path log s') {f : FrameId} (hf : f < s.frames.size) :
    s'.parent? f = s.parent? f := by
  induction h with
  | nil => rfl
  | newFrame h parent ih =>
    rw [parent?_newFrame, if_neg (Nat.ne_of_lt (Nat.lt_of_lt_of_le hf h.size_le)), ih]
  | newForm _ ih => exact ih
  | bind _ _ name v ih => rw [parent?_bind, ih]

/-- A name has the entry of the value that it was bound to last, or the entry it had before. -/
theorem get?_eq (h : s.Path log s') (f : FrameId) (name : String) :
    (s'.bindings f).get? name =
      ((lastBound log f name).map (Entry.of f)).or ((s.bindings f).get? name) := by
  induction h with
  | nil => rfl
  | newFrame _ parent ih =>
    rw [bindings_newFrame, lastBound_concat, ih]
    rfl
  | newForm _ ih =>
    rw [lastBound_concat]
    exact ih
  | @bind log s' _ g hg other v ih =>
    rw [lastBound_concat, Change.valueFor?]
    by_cases hgf : g = f
    · subst hgf
      rw [bindings_bind_self s' hg]
      by_cases hname : other = name
      · subst hname
        rw [Bindings.get?_insert_self, if_pos ⟨rfl, rfl⟩]
        rfl
      · rw [Bindings.get?_insert_of_ne _ (Ne.symm hname), if_neg (fun h ↦ hname h.2), ih]
        rfl
    · rw [bindings_bind_of_ne s' (Ne.symm hgf), if_neg (fun h ↦ hgf h.1), ih]
      rfl

theorem isSome_get? (h : s.Path log s') {f : FrameId} {name : String}
    (hbound : ((s.bindings f).get? name).isSome) : ((s'.bindings f).get? name).isSome := by
  rw [h.get?_eq, Option.isSome_or, hbound, Bool.or_true]

end Path

end Store

/-! ## Logs of runs -/

/-- Changes have led from the store to the one that the run leaves behind, and the bindings among
them are those that its events tell of. -/
def Run.Logged {α : Type} (s : Store) (r : Run α) : Prop :=
  ∃ log, s.Path log r.store ∧ log.filterMap Change.binding? = r.events.filterMap Event.binding?

namespace Action

variable {α β : Type} {s : Store} {m : Action α} {k : α → Action β}

/-- Wherever the action ends, its run is logged. -/
def Logs (m : Action α) (s : Store) : Prop := ∀ r, m s = some r → r.Logged s

theorem logs_unfinished : (unfinished : Action α).Logs s := by
  intro r hr
  cases hr

theorem logs_pure (a : α) : (pure a : Action α).Logs s := by
  intro r hr
  cases hr
  exact ⟨[], .nil, rfl⟩

theorem logs_fail (fault : Fault) : (fail fault : Action α).Logs s := by
  intro r hr
  cases hr
  exact ⟨[], .nil, rfl⟩

theorem logs_ofExcept (result : Except Fault α) : (ofExcept result).Logs s := by
  cases result with
  | ok a => exact logs_pure a
  | error fault => exact logs_fail fault

theorem logs_lookup (f : FrameId) (name : String) : (lookup f name).Logs s := by
  intro r hr
  rw [lookup] at hr
  split at hr <;> cases hr <;> exact ⟨[], .nil, rfl⟩

theorem logs_newFrame (parent : Option FrameId) :
    (update fun s ↦ s.newFrame parent).Logs s := by
  intro r hr
  cases hr
  exact ⟨[.newFrame parent], .newFrame .nil parent, rfl⟩

theorem logs_emit {event : Event} (h : event.binding? = none) : (emit event).Logs s := by
  intro r hr
  cases hr
  refine ⟨[], .nil, ?_⟩
  rw [List.filterMap_cons_none h]
  rfl

theorem logs_bindName {f : FrameId} (hf : f < s.frames.size) (name : String) (v : Value) :
    (bindName f name v).Logs s := by
  intro r hr
  cases hr
  exact ⟨[.bind f name v], .bind .nil hf name v, rfl⟩

theorem Logs.bind (hm : m.Logs s)
    (hk : ∀ a s' es, m s = some ⟨.ok a, s', es⟩ → s.frames.size ≤ s'.frames.size →
      (k a).Logs s') : (m >>= k).Logs s := by
  intro r hr
  obtain ⟨fault, hrun, -⟩ | ⟨a, s', es, r', hrun, hrest, rfl⟩ := bind_eq_some_iff.mp hr
  · exact hm _ hrun
  · obtain ⟨log, hpath, hlog⟩ := hm _ hrun
    obtain ⟨log', hpath', hlog'⟩ := hk a s' es hrun hpath.size_le r' hrest
    refine ⟨log ++ log', hpath.append hpath', ?_⟩
    rw [List.filterMap_append, List.filterMap_append, hlog, hlog']

theorem Logs.within (form : Expr) (h : m.Logs s) : (within form m).Logs s := by
  intro r hr
  rw [Action.within] at hr
  split at hr
  next fault s' es hm =>
    cases hr
    obtain ⟨log, hpath, hlog⟩ := h _ hm
    exact ⟨log, hpath, hlog⟩
  next => exact h r hr

theorem logs_bindAll {f : FrameId} (bs : List (String × Value)) (hf : f < s.frames.size) :
    (bindAll f bs).Logs s := by
  induction bs generalizing s with
  | nil => exact logs_pure ()
  | cons b bs ih =>
    exact (logs_bindName hf b.1 b.2).bind fun _ s' _ _ hle ↦ ih (Nat.lt_of_lt_of_le hf hle)

theorem logs_evalAll {part : Nat → Expr → Action Value} (es : List Expr) (i : Nat)
    (hpart : ∀ i e s', s.frames.size ≤ s'.frames.size → (part i e).Logs s') :
    (evalAll part i es).Logs s := by
  induction es generalizing s i with
  | nil => exact logs_pure []
  | cons e es ih =>
    refine (hpart i e s (Nat.le_refl _)).bind fun v s' _ _ hle ↦ ?_
    have hrest := ih (i + 1) fun j a t ht ↦ hpart j a t (Nat.le_trans hle ht)
    exact hrest.bind fun vs _ _ _ _ ↦ logs_pure (v :: vs)

/-- A call is logged if the evaluation of its body in the new frame is. -/
theorem logs_runWith {evalBody : Site → FrameId → Expr → Action Value} (c : Closure)
    (args : List Value)
    (hbody : ∀ site f e s', f < s'.frames.size → (evalBody site f e).Logs s') :
    (c.runWith evalBody args).Logs s := by
  rw [Closure.runWith]
  split
  · exact logs_fail _
  refine (logs_emit rfl).bind fun _ s₁ _ _ _ ↦ ?_
  refine (logs_newFrame (some c.frame)).bind fun f s₂ _ hnew _ ↦ ?_
  have hf : f < s₂.frames.size := by
    cases hnew
    simp
  exact (logs_bindAll _ hf).bind fun _ s₃ _ _ hle ↦ hbody _ _ _ s₃ (Nat.lt_of_lt_of_le hf hle)

end Action

open LexicalLisp.Action

/-- Evaluation in an existing frame is logged. -/
theorem eval_logs (depth : Nat) (site : Site) {f : FrameId} (e : Expr) (s : Store)
    (hf : f < s.frames.size) : (eval depth site f e).Logs s := by
  induction depth generalizing site f e s with
  | zero => exact logs_unfinished
  | succ depth ih =>
    -- A part of the expression is evaluated in the same frame, when there may be more frames.
    have part : ∀ (i : Nat) (a : Expr) (s' : Store), s.frames.size ≤ s'.frames.size →
        (eval depth (i :: site) f a).Logs s' :=
      fun i a s' hle ↦ ih (i :: site) a s' (Nat.lt_of_lt_of_le hf hle)
    have hle := Nat.le_refl s.frames.size
    cases e with
    | literal datum => exact logs_ofExcept _
    | symbol name => exact logs_lookup f name
    | definition name value =>
      refine ((part 0 value s hle).within _).bind fun v s₁ _ _ h₁ ↦ ?_
      exact (logs_bindName (Nat.lt_of_lt_of_le hf h₁) name v).bind fun _ _ _ _ _ ↦ logs_pure v
    | conditional test yes no =>
      refine (part 0 test s hle).bind fun v s₁ _ _ h₁ ↦ ?_
      split
      · exact part 1 yes s₁ h₁
      · exact part 2 no s₁ h₁
    | binary op left right =>
      refine (part 0 left s hle).bind fun a s₁ _ _ h₁ ↦ ?_
      exact (part 1 right s₁ h₁).bind fun b _ _ _ _ ↦ logs_ofExcept _
    | lambda params body => exact logs_pure _
    | call callee args =>
      refine .within _ ((part 0 callee s hle).bind fun v s₁ _ _ h₁ ↦ ?_)
      refine (logs_ofExcept _).bind fun c s₂ _ _ h₂ ↦ ?_
      have hargs : (evalAll (fun i a ↦ eval depth (i :: site) f a) 1 args).Logs s₂ :=
        logs_evalAll args 1 fun i a t ht ↦ part i a t (Nat.le_trans h₁ (Nat.le_trans h₂ ht))
      exact hargs.bind fun vs s₃ _ _ _ ↦ logs_runWith c vs fun site f e t ht ↦ ih site e t ht

theorem Closure.run_logs (depth : Nat) (c : Closure) (args : List Value) (s : Store) :
    (c.run depth args).Logs s :=
  logs_runWith c args fun site _ e s' hf ↦ eval_logs depth site e s' hf

end LexicalLisp
