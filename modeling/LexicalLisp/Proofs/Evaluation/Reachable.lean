import LexicalLisp.Proofs.Evaluation.Discipline

/-!
# The stores of a run

A store that a run can reach is made from the empty one by new frames, bindings, evaluations and
calls (`Store.Step`). Starting a session over is one of these steps, since it makes a new root.

In a reachable store every frame is younger than its parent, every closure that a frame holds
captured an existing frame, and it is held as a back reference if that is the frame itself
(`Store.WellFormed`). For evaluation this is an invariant only together with a fact about values:
what an evaluation gives can be bound afterwards, so it must not have captured a frame that does
not exist (`Value.LivesIn`).
-/

namespace LexicalLisp

/-- The value has captured no frame that the store does not have. -/
def Value.LivesIn (s : Store) : Value → Prop
  | .closure c => c.frame < s.frames.size
  | _ => True

namespace Store

/-- What holds of every store that a run can reach. -/
structure WellFormed (s : Store) : Prop where
  /-- A parent is older than its child. -/
  parent_lt : ∀ {f p}, s.parent? f = some p → p < f
  /-- The closures in the frames captured existing frames. -/
  livesIn : ∀ {f name v}, s.local? f name = some v → v.LivesIn s
  /-- A closure is held as a back reference if it captured the frame that holds it. -/
  entry_eq : ∀ {f name entry}, (s.bindings f).get? name = some entry →
    entry = Entry.of f (entry.toValue f)

/-- One step of a run. A value that is handed in from outside must have been made before. -/
inductive Step (s : Store) : Store → Prop
  /-- A new root. -/
  | newRoot : Step s (s.newFrame none).2
  /-- A new child of an existing frame. -/
  | newChild {p : FrameId} (hp : p < s.frames.size) : Step s (s.newFrame (some p)).2
  /-- A form enters the session. -/
  | newForm : Step s s.newForm.2
  /-- A binding in an existing frame. -/
  | bind {f : FrameId} {name : String} {v : Value} (hf : f < s.frames.size) (hv : v.LivesIn s) :
    Step s (s.bind f name v)
  /-- An evaluation in an existing frame. -/
  | eval {depth : Nat} {site : Site} {f : FrameId} {e : Expr} {r : Run Value}
    (hf : f < s.frames.size) (hr : LexicalLisp.eval depth site f e s = some r) : Step s r.store
  /-- A call. -/
  | run {depth : Nat} {c : Closure} {args : List Value} {r : Run Value}
    (hc : c.frame < s.frames.size) (hargs : ∀ v ∈ args, v.LivesIn s)
    (hr : c.run depth args s = some r) : Step s r.store

/-- The stores that a run can reach. -/
inductive Reachable : Store → Prop
  /-- A run begins without frames. -/
  | empty : Reachable .empty
  /-- A run goes on from where it is. -/
  | step {s s' : Store} (hs : Reachable s) (h : Step s s') : Reachable s'

end Store

variable {s s' : Store}

/-! ## Values that live in a store -/

theorem Value.LivesIn.mono {v : Value} (hv : v.LivesIn s)
    (h : s.frames.size ≤ s'.frames.size) : v.LivesIn s' := by
  cases v with
  | closure c => exact Nat.lt_of_lt_of_le hv h
  | _ => trivial

theorem Value.livesIn_of_ne_closure {v : Value} (h : ∀ c, v ≠ .closure c) : v.LivesIn s := by
  cases v with
  | closure c => exact absurd rfl (h c)
  | _ => trivial

/-! ## Well-formed stores -/

namespace Store

theorem wellFormed_empty : empty.WellFormed where
  parent_lt h := nomatch h
  livesIn h := nomatch h
  entry_eq h := nomatch h

theorem WellFormed.newFrame (hs : s.WellFormed) {parent : Option FrameId}
    (hparent : ∀ p, parent = some p → p < s.frames.size) : (s.newFrame parent).2.WellFormed where
  parent_lt {f p} h := by
    rw [parent?_newFrame] at h
    split at h
    next hf => exact hf ▸ hparent p h
    next => exact hs.parent_lt h
  livesIn {f name v} h := by
    rw [local?_newFrame] at h
    exact (hs.livesIn h).mono (by simp)
  entry_eq h := by
    rw [bindings_newFrame] at h
    exact hs.entry_eq h

theorem WellFormed.newForm (hs : s.WellFormed) : s.newForm.2.WellFormed := ⟨hs.1, hs.2, hs.3⟩

theorem WellFormed.bind (hs : s.WellFormed) {f : FrameId} (hf : f < s.frames.size) (name : String)
    {v : Value} (hv : v.LivesIn s) : (s.bind f name v).WellFormed where
  parent_lt h := hs.parent_lt (by rwa [parent?_bind] at h)
  livesIn {g other w} h := by
    have hw : w.LivesIn s := by
      obtain rfl | h := eq_or_local?_of_bind h
      · exact hv
      · exact hs.livesIn h
    exact hw.mono (by simp)
  entry_eq {g other entry} h := by
    by_cases hg : g = f
    · subst hg
      rw [bindings_bind_self s hf] at h
      by_cases hname : other = name
      · subst hname
        rw [Bindings.get?_insert_self] at h
        cases h
        rw [Entry.toValue_of]
      · rw [Bindings.get?_insert_of_ne _ hname] at h
        exact hs.entry_eq h
    · rw [bindings_bind_of_ne s hg] at h
      exact hs.entry_eq h

/-- The store in which the body of a closure over an existing frame is evaluated is well-formed, and
it has the frame of the call. -/
theorem WellFormed.enter (hs : s.WellFormed) {c : Closure} {args : List Value}
    (hc : c.frame < s.frames.size) (hargs : ∀ v ∈ args, v.LivesIn s) :
    (s.enter c args).WellFormed ∧ s.frames.size < (s.enter c args).frames.size := by
  have hnew : (s.newFrame (some c.frame)).2.WellFormed :=
    hs.newFrame fun p hp ↦ Option.some.inj hp ▸ hc
  refine bindAll_induction (P := fun s' ↦ s'.WellFormed ∧ s.frames.size < s'.frames.size)
    ⟨hnew, by simp⟩ fun s' ⟨hs', hsize⟩ b hb ↦ ?_
  have hb₂ : b.2.LivesIn s' := (hargs b.2 (List.of_mem_zip hb).2).mono (Nat.le_of_lt hsize)
  exact ⟨hs'.bind hsize b.1 hb₂, by simpa using hsize⟩

theorem WellFormed.livesIn_of_lookup? (hs : s.WellFormed) {f : FrameId} {name : String} {v : Value}
    (h : s.lookup? f name = some v) : v.LivesIn s := by
  obtain ⟨g, hg⟩ := exists_local?_of_lookup? h
  exact hs.livesIn hg

end Store

/-! ## Evaluations and calls -/

open LexicalLisp.Action LexicalLisp.Store

/-- What an evaluation that began in one store leaves behind: a well-formed store with as many
frames or more, and a value that lives there unless there was a fault. -/
structure Store.Yields (s : Store) (result : Except Fault Value) (s' : Store) : Prop where
  /-- The store is well-formed. -/
  wellFormed : s'.WellFormed
  /-- No frame is removed. -/
  size_le : s.frames.size ≤ s'.frames.size
  /-- The value can be bound afterwards. -/
  livesIn : ∀ v, result = .ok v → v.LivesIn s'

/-- That stores are well-formed and values live there is a discipline: evaluation has to begin in an
existing frame, and nothing is asked of the expression. -/
def Discipline.living : Discipline where
  store := WellFormed
  later s s' := s.frames.size ≤ s'.frames.size
  value s v := v.LivesIn s
  expr s f _ := f < s.frames.size
  cause _ := True
  later_refl _ := Nat.le_refl _
  later_trans := Nat.le_trans
  value_later h hv := hv.mono h
  expr_later h hf := Nat.lt_of_lt_of_le hf h
  integer _ _ := trivial
  bool _ _ := trivial
  cause_of_dynamic _ _ := trivial
  literal _ := ⟨fun _ h ↦ Value.livesIn_of_ne_closure (Value.ne_closure_of_ofLiteral h),
    fun _ _ ↦ trivial⟩
  symbol hs _ := ⟨fun _ hv ↦ hs.livesIn_of_lookup? hv, fun _ ↦ trivial⟩
  conditional hf := ⟨hf, hf, hf⟩
  binary hf := ⟨hf, hf⟩
  call hf := ⟨hf, fun _ _ ↦ hf⟩
  lambda _ hf := hf
  definition hf _ := hf
  bind hs hf hv := ⟨Nat.le_of_eq (size_bind ..).symm, hs.bind hf _ hv⟩
  bind_lambda := by
    intro s f name params body site hs hf v
    have hsize : (s.bind f name v).frames.size = s.frames.size := s.size_bind f name v
    have hv : v.LivesIn (s.bind f name v) := Nat.lt_of_lt_of_eq hf hsize.symm
    exact ⟨Nat.le_of_eq hsize.symm, hs.bind hf name hf, hv⟩
  enter := by
    intro s c args hs hc hargs _
    obtain ⟨hwf, hlt⟩ := hs.enter hc hargs
    exact ⟨Nat.le_of_lt hlt, hwf, hlt⟩

/-- Evaluation in an existing frame of a well-formed store yields values that live in a well-formed
store. -/
theorem eval_yields (depth : Nat) (site : Site) (f : FrameId) (e : Expr) (s : Store)
    (hs : s.WellFormed) (hf : f < s.frames.size) : (eval depth site f e).Ensures s s.Yields :=
  (eval_obeys Discipline.living depth site f e s hs hf).mono fun _ _ h ↦
    ⟨h.store, h.later, h.value⟩

theorem Closure.run_yields (depth : Nat) {c : Closure} {args : List Value} (hs : s.WellFormed)
    (hc : c.frame < s.frames.size) (hargs : ∀ v ∈ args, v.LivesIn s) :
    (c.run depth args).Ensures s s.Yields :=
  (c.run_obeys Discipline.living depth hs hc hargs).mono fun _ _ h ↦
    ⟨h.store, h.later, h.value⟩

/-! ## Reachable stores -/

theorem Store.WellFormed.step (hs : s.WellFormed) (h : Step s s') : s'.WellFormed := by
  cases h with
  | newRoot => exact hs.newFrame fun _ hp ↦ nomatch hp
  | newChild hp => exact hs.newFrame fun _ heq ↦ Option.some.inj heq ▸ hp
  | newForm => exact hs.newForm
  | bind hf hv => exact hs.bind hf _ hv
  | eval hf hr => exact (eval_yields _ _ _ _ s hs hf _ hr).wellFormed
  | run hc hargs hr => exact (Closure.run_yields _ hs hc hargs _ hr).wellFormed

theorem Store.Reachable.wellFormed (h : s.Reachable) : s.WellFormed := by
  induction h with
  | empty => exact wellFormed_empty
  | step _ hstep ih => exact ih.step hstep

end LexicalLisp
