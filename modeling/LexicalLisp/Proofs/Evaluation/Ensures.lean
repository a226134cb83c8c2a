import LexicalLisp.Eval

/-!
# What an action ensures

An action may not end, may end in a fault, and leaves a store in either case. `Action.Ensures` is a
partial judgement about it: wherever the action ends, its result and the store at its end satisfy a
postcondition. There is one rule for each way in which actions are put together, so that a fact
about evaluation is shown by following the shape of an expression, without opening an action.

A postcondition on the store alone that holds again after each part holds after the whole
(`Ensures.seq`), however many of the parts are reached.
-/

namespace LexicalLisp.Action

variable {α β : Type} {s : Store}

/-- Wherever the action ends, the postcondition holds of its result and the store at its end. -/
def Ensures (m : Action α) (s : Store) (Q : Except Fault α → Store → Prop) : Prop :=
  ∀ r, m s = some r → Q r.result r.store

section Rules

variable {m : Action α} {k : α → Action β} {P Q : Except Fault α → Store → Prop}

theorem Ensures.mono (h : m.Ensures s P) (hPQ : ∀ result s', P result s' → Q result s') :
    m.Ensures s Q := fun r hr ↦ hPQ _ _ (h r hr)

theorem ensures_unfinished : (unfinished : Action α).Ensures s Q := by
  intro r hr
  cases hr

theorem ensures_pure {a : α} (h : Q (.ok a) s) : (pure a : Action α).Ensures s Q := by
  intro r hr
  cases hr
  exact h

theorem ensures_fail {fault : Fault} (h : Q (.error fault) s) : (fail fault).Ensures s Q := by
  intro r hr
  cases hr
  exact h

theorem ensures_ofExcept {result : Except Fault α} (h : Q result s) :
    (ofExcept result).Ensures s Q := by
  cases result with
  | ok a => exact ensures_pure h
  | error fault => exact ensures_fail h

theorem ensures_update {change : Store → α × Store} (h : Q (.ok (change s).1) (change s).2) :
    (update change).Ensures s Q := by
  intro r hr
  cases hr
  exact h

theorem ensures_lookup {f : FrameId} {name : String} {R : Except Fault Value → Store → Prop}
    (hbound : ∀ v, s.lookup? f name = some v → R (.ok v) s)
    (hunbound : s.lookup? f name = none → R (.error (.ofCause (.unbound name))) s) :
    (lookup f name).Ensures s R := by
  intro r hr
  rw [lookup] at hr
  split at hr
  next v hv =>
    cases hr
    exact hbound v hv
  next hv =>
    cases hr
    exact hunbound hv

theorem attempt_eq_some_iff {r : Run (Except Fault α)} :
    m.attempt s = some r ↔ ∃ r', m s = some r' ∧ r = ⟨.ok r'.result, r'.store, r'.events⟩ := by
  rw [attempt]
  split
  next hm => simp [hm]
  next result s' es hm =>
    rw [hm, Option.some.injEq]
    exact ⟨fun h ↦ ⟨_, rfl, h.symm⟩, fun ⟨_, hr', h⟩ ↦ by rw [h, ← Option.some.inj hr']⟩

theorem Ensures.attempt {Q : Except Fault (Except Fault α) → Store → Prop}
    (h : m.Ensures s fun result s' ↦ Q (.ok result) s') : m.attempt.Ensures s Q := by
  intro r hr
  obtain ⟨r', hr', rfl⟩ := attempt_eq_some_iff.mp hr
  exact h r' hr'

theorem Ensures.bind {R : Except Fault β → Store → Prop} (hm : m.Ensures s P)
    (hfault : ∀ fault s', P (.error fault) s' → R (.error fault) s')
    (hk : ∀ a s', P (.ok a) s' → (k a).Ensures s' R) : (m >>= k).Ensures s R := by
  intro r hr
  obtain ⟨fault, hrun, hresult⟩ | ⟨a, s', es, r', hrun, hrest, rfl⟩ := bind_eq_some_iff.mp hr
  · rw [hresult]
    exact hfault fault r.store (hm _ hrun)
  · exact hk a s' (hm _ hrun) r' hrest

/-- What every part of a sequence keeps up holds at its end. -/
theorem Ensures.seq {I : Store → Prop} (hm : m.Ensures s fun _ ↦ I)
    (hk : ∀ a s', I s' → (k a).Ensures s' fun _ ↦ I) : (m >>= k).Ensures s fun _ ↦ I :=
  hm.bind (fun _ _ h ↦ h) hk

/-- A form around an action changes the fault that leaves it, and nothing else. -/
theorem Ensures.within (form : Expr)
    (h : m.Ensures s fun result s' ↦ Q (result.mapError (·.inside form.render)) s') :
    (within form m).Ensures s Q := by
  intro r hr
  rw [Action.within] at hr
  split at hr
  next fault s' es hm =>
    cases hr
    exact h _ hm
  next hm =>
    obtain ⟨result | a, s', es⟩ := r
    · exact absurd hr (hm _ _ _)
    · exact h _ hr

end Rules

theorem ensures_emit_bind {event : Event} {k : Unit → Action α} {Q : Except Fault α → Store → Prop}
    (h : (k ()).Ensures s Q) : (emit event >>= k).Ensures s Q := by
  have hemit : (emit event).Ensures s fun result s' ↦ result = .ok () ∧ s = s' := by
    intro r hr
    cases hr
    exact ⟨rfl, rfl⟩
  refine hemit.bind (fun _ _ h ↦ nomatch h.1) fun _ s' ⟨_, hs'⟩ ↦ ?_
  subst hs'
  exact h

theorem ensures_update_bind {change : Store → α × Store} {k : α → Action β}
    {Q : Except Fault β → Store → Prop} (h : (k (change s).1).Ensures (change s).2 Q) :
    (update change >>= k).Ensures s Q := by
  have hupdate : (update change).Ensures s fun result s' ↦
      result = .ok (change s).1 ∧ s' = (change s).2 := ensures_update ⟨rfl, rfl⟩
  refine hupdate.bind (fun _ _ h ↦ nomatch h.1) fun a s' ⟨ha, hs'⟩ ↦ ?_
  cases ha
  subst hs'
  exact h

theorem ensures_bindName {f : FrameId} {name : String} {v : Value}
    {Q : Except Fault Unit → Store → Prop} (h : Q (.ok ()) (s.bind f name v)) :
    (bindName f name v).Ensures s Q := ensures_emit_bind (ensures_update h)

theorem ensures_bindAll {f : FrameId} {I : Store → Prop} (bs : List (String × Value))
    (hbind : ∀ s', I s' → ∀ p ∈ bs, I (s'.bind f p.1 p.2)) (hs : I s) :
    (bindAll f bs).Ensures s fun _ ↦ I := by
  induction bs generalizing s with
  | nil => exact ensures_pure hs
  | cons p bs ih =>
    have hp : (bindName f p.1 p.2).Ensures s fun _ ↦ I :=
      ensures_bindName (hbind s hs p List.mem_cons_self)
    exact hp.seq fun _ s' hs' ↦
      ih (fun s'' hs'' q hq ↦ hbind s'' hs'' q (List.mem_cons_of_mem p hq)) hs'

theorem ensures_evalAll {part : Nat → Expr → Action Value} {I : Store → Prop} (es : List Expr)
    (hpart : ∀ i, ∀ e ∈ es, ∀ s, I s → (part i e).Ensures s fun _ ↦ I) (i : Nat) (hs : I s) :
    (evalAll part i es).Ensures s fun _ ↦ I := by
  induction es generalizing s i with
  | nil => exact ensures_pure hs
  | cons e es ih =>
    refine (hpart i e List.mem_cons_self s hs).seq fun v s' hs' ↦ ?_
    have hrest := ih (fun j a ha ↦ hpart j a (List.mem_cons_of_mem e ha)) (i + 1) hs'
    exact hrest.seq fun vs s'' hs'' ↦ ensures_pure hs''

theorem ensures_runWith {evalBody : Site → FrameId → Expr → Action Value} {c : Closure}
    {args : List Value} {Q : Except Fault Value → Store → Prop}
    (harity : args.length ≠ c.lambda.arity →
      Q (.error (.ofCause (.arity c.lambda.arity args.length))) s)
    (hbody : args.length = c.lambda.arity →
      (bindAll s.frames.size (c.lambda.params.zip args) >>= fun _ ↦
        evalBody (0 :: c.lambda.site) s.frames.size c.lambda.body).Ensures
          (s.newFrame (some c.frame)).2 Q) :
    (c.runWith evalBody args).Ensures s Q := by
  rw [Closure.runWith]
  split
  next h => exact ensures_fail (harity h)
  next h => exact ensures_emit_bind (ensures_update_bind (hbody (Decidable.not_not.mp h)))

end LexicalLisp.Action
