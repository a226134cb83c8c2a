import LexicalLisp.Proofs.Evaluation.Rules
import LexicalLisp.Proofs.Sessions.Course

/-!
# The order of evaluation

The rules of evaluation give the order in which the parts of an expression are visited and events
are emitted. Two things follow for whole evaluations, however deep they are and whether they fail.

No part is evaluated twice: in the frame of an evaluation only parts of the expression are visited,
each at most once, and all other visits happen in frames that the evaluation has made, those of the
bodies that it has called (`Evaluates.spread`).

A call is announced before its body: behind the event of a call come those of its bindings, one for
each parameter, and nothing is between them (`Announced`). This is so in everything that is done
with a session (`Session.Log.announced`).
-/

namespace LexicalLisp

open LexicalLisp.Action LexicalLisp.Moment

/-! ## Each part at most once -/

namespace Moment

@[simp] theorem visits_visit (site : Site) (f : FrameId) (ms : List Moment) :
    visits (visit site f :: ms) = (site, f) :: visits ms := rfl

@[simp] theorem visits_append (ms ns : List Moment) : visits (ms ++ ns) = visits ms ++ visits ns :=
  List.filterMap_append

@[simp] theorem visits_map_event (es : List Event) : visits (es.map event) = [] := by
  rw [visits, List.filterMap_map]
  exact List.filterMap_eq_nil_iff.mpr fun _ _ ↦ rfl

end Moment

theorem Store.size_enter (s : Store) (c : Closure) (args : List Value) :
    (s.enter c args).frames.size = s.frames.size + 1 := by
  refine bindAll_induction (P := fun s' ↦ s'.frames.size = s.frames.size + 1) (by simp) ?_
  intro s' hs' b _
  rw [size_bind, hs']

/-- Visits on the way from one store to another that do not repeat. Those in the frame are of
certain sites, and all others happen in frames that are made on the way. -/
structure Spread (P : Site → Prop) (f : FrameId) (s s' : Store) (vs : List (Site × FrameId)) :
    Prop where
  size_le : s.frames.size ≤ s'.frames.size
  nodup : vs.Nodup
  place : ∀ v ∈ vs, v.2 = f ∧ P v.1 ∨ s.frames.size ≤ v.2 ∧ v.2 < s'.frames.size

namespace Spread

variable {P Q : Site → Prop} {f : FrameId} {s s₁ s₂ : Store} {vs ws : List (Site × FrameId)}

theorem nil (s : Store) : Spread P f s s [] := ⟨Nat.le_refl _, List.nodup_nil, nofun⟩

theorem mono (h : Spread P f s s₁ vs) (hPQ : ∀ x, P x → Q x) : Spread Q f s s₁ vs where
  size_le := h.size_le
  nodup := h.nodup
  place v hv := (h.place v hv).imp_left fun ⟨hf, hP⟩ ↦ ⟨hf, hPQ _ hP⟩

theorem bind (h : Spread P f s s₁ vs) (g : FrameId) (name : String) (v : Value) :
    Spread P f s (s₁.bind g name v) vs := by
  obtain ⟨hsize, hnodup, hplace⟩ := h
  rw [← s₁.size_bind g name v] at hsize hplace
  exact ⟨hsize, hnodup, hplace⟩

/-- Visits of different parts do not repeat: where the first happened in new frames, those frames
are old when the second begin. -/
theorem append (h : Spread P f s s₁ vs) (h' : Spread Q f s₁ s₂ ws) (hf : f < s.frames.size)
    (hPQ : ∀ x, P x → ¬Q x) : Spread (fun x ↦ P x ∨ Q x) f s s₂ (vs ++ ws) where
  size_le := Nat.le_trans h.size_le h'.size_le
  nodup := by
    refine List.nodup_append.mpr ⟨h.nodup, h'.nodup, fun v hv w hw hvw ↦ ?_⟩
    subst hvw
    rcases h.place v hv with ⟨hvf, hP⟩ | ⟨hnew, hold⟩
    · rcases h'.place v hw with ⟨-, hQ⟩ | ⟨hnew', -⟩
      · exact hPQ _ hP hQ
      · exact Nat.not_lt.mpr (Nat.le_trans h.size_le (hvf ▸ hnew')) hf
    · rcases h'.place v hw with ⟨hvf, -⟩ | ⟨hnew', -⟩
      · exact Nat.not_lt.mpr (hvf ▸ hnew) hf
      · exact Nat.not_lt.mpr hnew' hold
  place v hv := by
    rcases List.mem_append.mp hv with hv | hv
    · rcases h.place v hv with ⟨hvf, hP⟩ | ⟨hnew, hold⟩
      · exact .inl ⟨hvf, .inl hP⟩
      · exact .inr ⟨hnew, Nat.lt_of_lt_of_le hold h'.size_le⟩
    · rcases h'.place v hv with ⟨hvf, hQ⟩ | ⟨hnew, hold⟩
      · exact .inl ⟨hvf, .inr hQ⟩
      · exact .inr ⟨Nat.le_trans h.size_le hnew, hold⟩

/-- A body is evaluated in a frame that is made for it. -/
theorem of_body {c : Closure} {args : List Value}
    (h : Spread P s.frames.size (s.enter c args) s₁ vs) : Spread (fun _ ↦ False) f s s₁ vs := by
  obtain ⟨hsize, hnodup, hplace⟩ := h
  rw [s.size_enter] at hsize hplace
  refine ⟨Nat.le_of_succ_le hsize, hnodup, fun v hv ↦ .inr ?_⟩
  rcases hplace v hv with ⟨hvf, -⟩ | ⟨hnew, hold⟩
  · rw [hvf]
    exact ⟨Nat.le_refl _, hsize⟩
  · exact ⟨Nat.le_of_succ_le hnew, hold⟩

end Spread

/-- The parts of a form from the `i`-th on. -/
def Site.Within (site : Site) (i : Nat) (x : Site) : Prop := ∃ j ≥ i, (j :: site) <:+ x

namespace Site

variable {site x : Site} {i j : Nat}

theorem eq_of_cons_suffix (hi : (i :: site) <:+ x) (hj : (j :: site) <:+ x) : i = j := by
  have heq : i :: site = j :: site := by
    rcases List.suffix_or_suffix_of_suffix hi hj with h | h
    · exact h.eq_of_length rfl
    · exact (h.eq_of_length rfl).symm
  exact (List.cons.inj heq).1

theorem not_cons_suffix_self : ¬(i :: site) <:+ site := by
  intro h
  have hlength := h.length_le
  rw [List.length_cons] at hlength
  omega

end Site

namespace Spread

variable {P : Site → Prop} {f : FrameId} {site : Site} {s s₁ s₂ : Store}
  {vs ws : List (Site × FrameId)}

theorem visit (h : Spread (site.Within 0) f s s₁ vs) (hf : f < s.frames.size) :
    Spread (fun x ↦ site <:+ x) f s s₁ ((site, f) :: vs) where
  size_le := h.size_le
  nodup := by
    refine List.nodup_cons.mpr ⟨fun hv ↦ ?_, h.nodup⟩
    rcases h.place _ hv with ⟨-, j, -, hj⟩ | ⟨hnew, -⟩
    · exact Site.not_cons_suffix_self hj
    · exact Nat.not_le.mpr hf hnew
  place v hv := by
    rcases List.mem_cons.mp hv with rfl | hv
    · exact .inl ⟨rfl, List.suffix_rfl⟩
    · refine (h.place v hv).imp_left fun ⟨hvf, j, _, hj⟩ ↦ ⟨hvf, ?_⟩
      exact (List.suffix_cons j site).trans hj

theorem last {i j : Nat} (h : Spread (fun x ↦ (j :: site) <:+ x) f s s₁ vs) (hij : i ≤ j) :
    Spread (site.Within i) f s s₁ vs := h.mono fun _ hx ↦ ⟨j, hij, hx⟩

/-- The visits of one part of a form come before those of the next ones. -/
theorem part {i : Nat} (h : Spread (fun x ↦ (i :: site) <:+ x) f s s₁ vs)
    (h' : f < s₁.frames.size → Spread (site.Within (i + 1)) f s₁ s₂ ws)
    (hf : f < s.frames.size) : Spread (site.Within i) f s s₂ (vs ++ ws) := by
  have hrest := h' (Nat.lt_of_lt_of_le hf h.size_le)
  refine (h.append hrest hf ?_).mono ?_
  · rintro x hi ⟨j, hj, hx⟩
    obtain rfl := Site.eq_of_cons_suffix hi hx
    exact Nat.not_succ_le_self i hj
  · rintro x (hi | ⟨j, hj, hx⟩)
    · exact ⟨i, Nat.le_refl i, hi⟩
    · exact ⟨j, Nat.le_of_succ_le hj, hx⟩

end Spread

/-- **No part is evaluated twice.** In the frame of the evaluation only parts of the expression are
visited, and no visit repeats. -/
theorem Evaluates.spread {s s' : Store} {site : Site} {f : FrameId} {e : Expr}
    {result : Except Fault Value} {ms : List Moment} (h : Evaluates s site f e result s' ms)
    (hf : f < s.frames.size) : Spread (fun x ↦ site <:+ x) f s s' (visits ms) := by
  induction h using Evaluates.rec (motive_2 := fun s site f i es result s' ms _ ↦
    f < s.frames.size → Spread (site.Within i) f s s' (visits ms)) with
  | literal | symbol | unbound | lambda => exact (Spread.nil _).visit hf
  | definition h ih =>
    rw [List.cons_append, visits_visit, visits_append]
    exact ((ih hf).part (fun _ ↦ (Spread.nil _).bind _ _ _) hf).visit hf
  | definition_fault _ ih
  | test_fault _ ih
  | left_fault _ ih
  | callee_fault _ ih
  | not_callable _ _ ih => exact ((ih hf).last (Nat.le_refl 0)).visit hf
  | binary _ _ ih ih'
  | right_fault _ _ ih ih' =>
    rw [List.cons_append, visits_visit, visits_append]
    exact ((ih hf).part (fun hf₁ ↦ (ih' hf₁).last (Nat.le_refl 1)) hf).visit hf
  | @conditional _ _ _ _ _ _ _ _ v _ _ _ _ _ ih ih' =>
    rw [List.cons_append, visits_visit, visits_append]
    have hchosen : 1 ≤ if v.isTrue then 1 else 2 := by split <;> omega
    exact ((ih hf).part (fun hf₁ ↦ (ih' hf₁).last hchosen) hf).visit hf
  | @call _ _ s₂ _ _ _ _ _ c vs _ _ _ _ _ _ _ _ ihcallee ihargs ihbody =>
    simp only [List.cons_append, visits_visit, visits_append, visits_map_event, List.append_nil]
    have hparts := (ihcallee hf).part ihargs hf
    have hbody := ihbody (by rw [s₂.size_enter]; exact Nat.lt_succ_self _)
    have hall := hparts.append hbody.of_body hf fun _ _ ↦ id
    exact (hall.mono fun _ hx ↦ hx.resolve_right id).visit hf
  | argument_fault _ _ ih ih'
  | arity _ _ _ ih ih' =>
    rw [List.cons_append, visits_visit, visits_append]
    exact ((ih hf).part ih' hf).visit hf
  | nil => exact .nil _
  | fault _ ih hf => exact (ih hf).last (Nat.le_refl _)
  | cons _ _ ih ih' hf =>
    rw [visits_append]
    exact (ih hf).part ih' hf

/-! ## Calls are announced -/

/-- Events among which every call is followed by the bindings of its parameters. -/
inductive Announced : List Event → Prop
  | nil : Announced []
  | cons {event : Event} {es : List Event} (hevent : ∀ c n, event ≠ .call c n)
    (hes : Announced es) : Announced (event :: es)
  | call {c : Closure} {args : List Value} {es : List Event}
    (harity : args.length = c.lambda.arity) (hes : Announced es) :
    Announced (c.announcement args ++ es)

namespace Announced

variable {es es' : List Event}

theorem append (h : Announced es) (h' : Announced es') : Announced (es ++ es') := by
  induction h with
  | nil => exact h'
  | cons hevent _ ih => exact .cons hevent ih
  | call harity _ ih =>
    rw [List.append_assoc]
    exact .call harity ih

theorem singleton {event : Event} (hevent : ∀ c n, event ≠ .call c n) : Announced [event] :=
  .cons hevent .nil

theorem not_mem_bindings {c c' : Closure} {args : List Value} {n : Nat} :
    .call c' n ∉ c.bindings args := by
  rw [Closure.bindings, List.mem_map]
  rintro ⟨b, -, h⟩
  cases h

/-- **Behind the event of a call come the bindings of its parameters**, before anything else. -/
theorem bindings_after (h : Announced es) {before after : List Event} {c : Closure} {n : Nat}
    (hes : es = before ++ .call c n :: after) :
    n = c.lambda.arity ∧ ∃ args rest, args.length = n ∧ after = c.bindings args ++ rest := by
  induction h generalizing before with
  | nil => cases before <;> cases hes
  | @cons event es hevent _ ih =>
    cases before with
    | nil => exact absurd (List.cons.inj hes).1 (hevent c n)
    | cons _ before => exact ih (List.cons.inj hes).2
  | @call c' args es harity _ ih =>
    cases before with
    | nil =>
      cases hes
      exact ⟨harity, args, es, rfl, rfl⟩
    | cons _ before =>
      -- the event is not one of these bindings, and so it comes after them
      have hrest := (List.cons.inj hes).2
      rcases List.append_eq_append_iff.mp hrest with ⟨mid, rfl, hmid⟩ | ⟨mid, hmid, hmid'⟩
      · exact ih hmid
      · cases mid with
        | nil => exact @ih [] hmid'.symm
        | cons _ mid =>
          cases (List.cons.inj hmid').1
          refine absurd ?_ (@not_mem_bindings c' c args n)
          rw [hmid]
          simp

end Announced

theorem Evaluates.announced {s s' : Store} {site : Site} {f : FrameId} {e : Expr}
    {result : Except Fault Value} {ms : List Moment} (h : Evaluates s site f e result s' ms) :
    Announced (events ms) := by
  induction h using Evaluates.rec (motive_2 := fun _ _ _ _ _ _ _ ms _ ↦ Announced (events ms)) with
  | literal | symbol | unbound | lambda | nil => exact .nil
  | definition _ ih =>
    rw [List.cons_append, events_visit, events_append]
    exact ih.append (.singleton nofun)
  | definition_fault _ ih
  | test_fault _ ih
  | left_fault _ ih
  | callee_fault _ ih
  | not_callable _ _ ih
  | fault _ ih => exact ih
  | conditional _ _ ih ih'
  | binary _ _ ih ih'
  | right_fault _ _ ih ih'
  | argument_fault _ _ ih ih'
  | arity _ _ _ ih ih' =>
    rw [List.cons_append, events_visit, events_append]
    exact ih.append ih'
  | call _ _ harity _ ihcallee ihargs ihbody =>
    simp only [List.cons_append, events_visit, events_append, events_map_event, List.append_assoc]
    exact ihcallee.append (ihargs.append (.call harity ihbody))
  | cons _ _ ih ih' =>
    rw [events_append]
    exact ih.append ih'

/-! ## Sessions -/

namespace Action

variable {α β : Type}

/-- Every call is announced, wherever the action ends. -/
def Announces (m : Action α) : Prop := ∀ s r, m s = some r → Announced r.events

theorem announces_pure (a : α) : (pure a : Action α).Announces := by
  intro s r hr
  cases hr
  exact .nil

theorem announces_fail (fault : Fault) : (fail fault : Action α).Announces := by
  intro s r hr
  cases hr
  exact .nil

theorem announces_update (change : Store → α × Store) : (update change).Announces := by
  intro s r hr
  cases hr
  exact .nil

theorem announces_emit {event : Event} (hevent : ∀ c n, event ≠ .call c n) :
    (emit event).Announces := by
  intro s r hr
  cases hr
  exact .singleton hevent

theorem announces_ofExcept (result : Except Fault α) : (ofExcept result).Announces := by
  cases result with
  | ok a => exact announces_pure a
  | error fault => exact announces_fail fault

theorem announces_lookup (f : FrameId) (name : String) : (lookup f name).Announces := by
  intro s r hr
  rw [lookup] at hr
  split at hr <;> cases hr <;> exact .nil

theorem Announces.bind {m : Action α} {k : α → Action β} (hm : m.Announces)
    (hk : ∀ a, (k a).Announces) : (m >>= k).Announces := by
  intro s r hr
  obtain ⟨x, s₁, es, hm', rfl⟩ | ⟨a, s₁, es, r₁, hm', hk', rfl⟩ := bind_cases hr
  · exact hm s _ hm'
  · exact (hm s _ hm').append (hk a s₁ r₁ hk')

theorem Announces.attempt {m : Action α} (hm : m.Announces) : m.attempt.Announces := by
  intro s r hr
  obtain ⟨r', hr', rfl⟩ := attempt_eq_some_iff.mp hr
  exact hm s r' hr'

theorem announces_bindName (f : FrameId) (name : String) (v : Value) :
    (bindName f name v).Announces := (announces_emit (by nofun)).bind fun _ ↦ announces_update _

theorem announces_eval (depth : Nat) (site : Site) (f : FrameId) (e : Expr) :
    (eval depth site f e).Announces := by
  intro s r hr
  obtain ⟨ms, hms, hevents⟩ := follows_eval hr
  rw [← hevents]
  exact hms.announced

end Action

theorem Closure.announces_run (depth : Nat) (c : Closure) (args : List Value) :
    (c.run depth args).Announces := by
  intro s r hr
  obtain ⟨-, rfl⟩ | ⟨harity, r₁, hbody, rfl⟩ := c.runWith_cases hr
  · exact .nil
  · exact .call harity (announces_eval depth _ _ _ _ _ hbody)

namespace Session

/-- What a user can do with a session and its frames, besides starting over. -/
inductive Offers (session : Session) : {α : Type} → Action α → Prop
  /-- A text is evaluated up to its first fault. -/
  | evalString (depth : Nat) (source : String) : Offers session (session.evalString depth source)
  /-- The results of the first items of a text are asked for, possibly of all. -/
  | firstForms (depth count : Nat) (source : String) :
    Offers session (session.firstForms depth count source)
  /-- An expression enters the session. -/
  | enter (e : Expr) : Offers session (Session.enter e)
  /-- A form is evaluated, for the first time or again. -/
  | evalForm (depth : Nat) (form : Form) : Offers session (session.evalForm depth form)
  /-- An expression is evaluated in some frame. -/
  | eval (depth : Nat) (site : Site) (f : FrameId) (e : Expr) :
    Offers session (LexicalLisp.eval depth site f e)
  /-- A closure is applied. -/
  | apply (depth : Nat) (c : Closure) (args : List Value) : Offers session (c.run depth args)
  /-- A name is looked up in some frame. -/
  | lookup (f : FrameId) (name : String) : Offers session (Action.lookup f name)
  /-- A name is bound in some frame. -/
  | bind (f : FrameId) (name : String) (v : Value) : Offers session (bindName f name v)
  /-- A frame is made. -/
  | newFrame (parent : Option FrameId) : Offers session (update (·.newFrame parent))

/-- A session has been used up to here: what it is now, its store, and all events since its start. A
course of the session has no events, and it is confined to the root. -/
inductive Log : Session → Store → List Event → Prop
  | start {table : OperatorTable} {session : Session} {s : Store} {es : List Event}
    (hr : Session.start table .empty = some ⟨.ok session, s, es⟩) : Log session s es
  | act {session : Session} {s : Store} {es : List Event} {α : Type} {m : Action α} {r : Run α}
    (h : Log session s es) (hm : session.Offers m) (hr : m s = some r) :
    Log session r.store (es ++ r.events)
  | reset {session session' : Session} {s s' : Store} {es es' : List Event}
    (h : Log session s es) (hr : session.reset s = some ⟨.ok session', s', es'⟩) :
    Log session' s' (es ++ es')

variable {session : Session}

theorem announces_start (table : OperatorTable) : (start table).Announces :=
  (announces_update _).bind fun _ ↦ announces_pure _

theorem announces_reset : session.reset.Announces :=
  (announces_emit (by nofun)).bind fun _ ↦ announces_start _

theorem announces_evalForm (depth : Nat) (form : Form) : (session.evalForm depth form).Announces :=
  (announces_emit (by nofun)).bind fun _ ↦ announces_eval _ _ _ _

theorem announces_enter (e : Expr) : (enter e).Announces :=
  (announces_update _).bind fun _ ↦ announces_pure _

theorem announces_evalItem (depth : Nat) (item : Except ReadError Datum) :
    (session.evalItem depth item).Announces :=
  (announces_ofExcept _).bind fun e ↦ (announces_enter e).bind fun form ↦
    announces_evalForm depth form

theorem announces_evalItems (depth : Nat) (last : Option Value)
    (items : List (Except ReadError Datum)) : (session.evalItems depth last items).Announces := by
  induction items generalizing last with
  | nil =>
    cases last with
    | none => exact announces_fail _
    | some v => exact announces_pure v
  | cons item items ih => exact (announces_evalItem depth item).bind fun v ↦ ih (some v)

theorem announces_evalEach (depth : Nat) (items : List (Except ReadError Datum)) :
    (session.evalEach depth items).Announces := by
  induction items with
  | nil => exact announces_pure _
  | cons item items ih =>
    exact (announces_evalItem depth item).attempt.bind fun _ ↦ ih.bind fun _ ↦ announces_pure _

theorem Offers.announces {α : Type} {m : Action α} (h : session.Offers m) : m.Announces := by
  cases h with
  | evalString depth source => exact announces_evalItems depth none _
  | firstForms depth count source => exact announces_evalEach depth _
  | enter e => exact announces_enter e
  | evalForm depth form => exact announces_evalForm depth form
  | eval depth site f e => exact announces_eval depth site f e
  | apply depth c args => exact c.announces_run depth args
  | lookup f name => exact announces_lookup f name
  | bind f name v => exact announces_bindName f name v
  | newFrame parent => exact announces_update _

theorem Log.announced {s : Store} {es : List Event} (h : Log session s es) : Announced es := by
  induction h with
  | start hr => exact announces_start _ _ _ hr
  | act _ hm hr ih => exact ih.append (hm.announces _ _ hr)
  | reset _ hr ih => exact ih.append (announces_reset _ _ hr)

end Session

/-! ## The theorem -/

/-- What the events of bindings show: each parameter with the text of its argument. -/
theorem Closure.fields_bindings (c : Closure) (args : List Value) :
    (c.bindings args).map Event.fields =
      (c.lambda.params.zip args).map fun b ↦ [("name", b.1), ("value", b.2.render)] := by
  rw [bindings, List.map_map]
  rfl

/-- **Order and events of evaluation.** The evaluations that end are those that the rules describe,
with these events. In an existing frame no part is visited twice, and all other visits happen in new
frames. Whatever is done with a session, the event of a call shows the number of arguments, and
right behind it come the bindings of the parameters of this closure, as many and with the texts of
the arguments. -/
theorem evaluation_order :
    (∀ s site f e r, (∃ depth, eval depth site f e s = some r) ↔
      ∃ ms, Evaluates s site f e r.result r.store ms ∧ events ms = r.events) ∧
    (∀ s site f e result s' ms, f < s.frames.size → Evaluates s site f e result s' ms →
      (visits ms).Nodup ∧
        ∀ v ∈ visits ms, v.2 = f ∧ site <:+ v.1 ∨ s.frames.size ≤ v.2 ∧ v.2 < s'.frames.size) ∧
    ∀ session s es before c n after, Session.Log session s es → es = before ++ .call c n :: after →
      n = c.lambda.arity ∧ ∃ args rest, args.length = n ∧ after = c.bindings args ++ rest ∧
        (c.bindings args).map Event.fields =
          (c.lambda.params.zip args).map fun b ↦ [("name", b.1), ("value", b.2.render)] := by
  refine ⟨fun _ _ _ _ _ ↦ exists_eval_iff, ?_, ?_⟩
  · intro s site f e result s' ms hf h
    exact ⟨(h.spread hf).nodup, (h.spread hf).place⟩
  · intro session s es before c n after hlog hes
    obtain ⟨hn, args, rest, hargs, hafter⟩ := hlog.announced.bindings_after hes
    exact ⟨hn, args, rest, hargs, hafter, c.fields_bindings args⟩

/-- The body of the function calls an argument that is no closure. The evaluation has then visited
each part once, and the session has seen one call, of the function, with two bindings behind it. -/
theorem evaluation_order_argument_not_callable :
    let s := (Store.empty.newFrame none).2
    let inner := Expr.call (.symbol "x") []
    let e := Expr.call (.lambda ["x", "y"] inner) [.literal (.bool true), .literal (.bool false)]
    let c : Closure := ⟨⟨[0, 0], ["x", "y"], inner⟩, 0⟩
    let told : List Event := [.bind "x" (.bool true), .bind "y" (.bool false)]
    let result : Except Fault Value :=
      .error ⟨.notCallable (Value.bool true).render, [inner.render, e.render]⟩
    (∃ s' ms, Evaluates s [0] 0 e result s' ms ∧ events ms = .call c 2 :: told ∧
      (visits ms).Nodup) ∧
    (∃ s', Session.Log ⟨.full, 0⟩ s' ([.evaluating e] ++ .call c 2 :: told)) ∧
      2 = c.lambda.arity ∧ ∃ args rest, args.length = 2 ∧ told = c.bindings args ++ rest := by
  intro s inner e c told result
  obtain ⟨hrules, hvisits, hsession⟩ := evaluation_order
  let s' := s.enter c [.bool true, .bool false]
  have hx : s'.lookup? 1 "x" = some (.bool true) := by decide +kernel
  obtain ⟨ms, h, hevents⟩ : ∃ ms, Evaluates s [0] 0 e result s' ms ∧
      events ms = .call c 2 :: told :=
    ⟨_, .call (.lambda _ _) (.cons (.literal _) (.cons (.literal _) .nil)) rfl
      (.not_callable (.symbol hx) nofun), rfl⟩
  obtain ⟨depth, heval⟩ := (hrules s [0] 0 e ⟨result, s', _⟩).mpr ⟨ms, h, hevents⟩
  have hlog : Session.Log ⟨.full, 0⟩ s' ([.evaluating e] ++ .call c 2 :: told) :=
    .act (.start rfl) (.evalForm depth ⟨0, e⟩) (bind_of_ok rfl heval)
  have hnodup := (hvisits s [0] 0 e result s' ms Nat.zero_lt_one h).1
  obtain ⟨harity, args, rest, hargs, hafter, -⟩ := hsession _ _ _ _ c 2 told hlog rfl
  exact ⟨⟨s', ms, h, hevents, hnodup⟩, ⟨s', hlog⟩, harity, args, rest, hargs, hafter⟩

end LexicalLisp
