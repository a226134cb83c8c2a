import LexicalLisp.Proofs.Evaluation.Changes
import LexicalLisp.Proofs.Evaluation.Reachable
import LexicalLisp.Session
import Mathlib.Logic.Relation

/-!
# Histories

A history is what has happened from the beginning: the store, the values that were obtained, and
the events. It goes on by the operations that can be done from outside, and none of them is given a
value that was not obtained before (`History.Step`). So nothing is assumed of the closures that are
bound or called, and that their frames exist is a result (`History.Sound.livesIn`).

`History.store_invariant` says what the store is like at any time (`Store.Consistent`) and what
stays that way (`Store.Keeps`). Links lead to older frames, and a name has the value that it was
bound to last: the changes of the store, whose bindings are those that the events tell of, determine
every entry.
-/

namespace LexicalLisp

open Relation

/-! ## Links and chains -/

namespace Store

variable {s : Store}

theorem WellFormed.wellFounded_parent (hs : s.WellFormed) :
    WellFounded fun p f ↦ s.parent? f = some p :=
  Subrelation.wf (fun h ↦ hs.parent_lt h) Nat.lt_wfRel.wf

/-- A chain leaves no link out. -/
theorem WellFormed.chain_eq (hs : s.WellFormed) {f p : FrameId} (h : s.parent? f = some p) :
    s.chain f = f :: s.chain p := by
  rw [chain, h]
  exact if_pos (hs.parent_lt h)

theorem Path.get?_eq_lastBound {log : List Change} (hpath : Store.empty.Path log s) (f : FrameId)
    (name : String) : (s.bindings f).get? name = (lastBound log f name).map (Entry.of f) := by
  rw [hpath.get?_eq]
  exact Option.or_none

theorem isSome_lookup? {f g : FrameId} {name : String} (hf : f ∈ s.chain g)
    (hbound : ((s.bindings f).get? name).isSome) : (s.lookup? g name).isSome := by
  rw [lookup?, List.findSome?_isSome_iff]
  exact ⟨f, hf, by rwa [local?, Option.isSome_map]⟩

/-- The store is what the changes have made of the empty one. -/
structure Consistent (log : List Change) (s : Store) : Prop where
  /-- A parent was made before its child. -/
  parent_lt : ∀ {f p}, s.parent? f = some p → p < f
  /-- Going from frame to parent comes to an end. -/
  wellFounded_parent : WellFounded fun p f ↦ s.parent? f = some p
  /-- A chain leaves no link out. -/
  chain_eq : ∀ {f p}, s.parent? f = some p → s.chain f = f :: s.chain p
  /-- Reading the entry of a name gives back the value that was bound last, and there are no other
  entries. -/
  local?_eq : ∀ f name, s.local? f name = lastBound log f name
  /-- An entry is a back reference if the closure that was bound captured the frame itself, and
  only then. -/
  isOwn_iff : ∀ {f name entry}, (s.bindings f).get? name = some entry →
    (entry.isOwn = true ↔ ∃ lambda, lastBound log f name = some (.closure ⟨lambda, f⟩))
  /-- The closures in the frames captured existing frames. -/
  frame_lt : ∀ {f name c}, s.local? f name = some (.closure c) → c.frame < s.frames.size
  /-- A name resolves in every frame whose chain binds it. -/
  isSome_lookup? : ∀ {f g name}, f ∈ s.chain g → ((s.bindings f).get? name).isSome →
    (s.lookup? g name).isSome

theorem WellFormed.consistent (hs : s.WellFormed) {log : List Change}
    (hpath : Store.empty.Path log s) : s.Consistent log where
  parent_lt := hs.parent_lt
  wellFounded_parent := hs.wellFounded_parent
  chain_eq := hs.chain_eq
  local?_eq f name := by
    rw [local?, hpath.get?_eq_lastBound, Option.map_map, show Entry.toValue f ∘ Entry.of f = id from
      funext (Entry.toValue_of f), Option.map_id_apply]
  isOwn_iff {f name entry} h := by
    rw [hpath.get?_eq_lastBound, Option.map_eq_some_iff] at h
    obtain ⟨v, hv, rfl⟩ := h
    rw [Entry.isOwn_of, hv]
    simp only [Option.some.injEq]
  frame_lt h := hs.livesIn h
  isSome_lookup? := Store.isSome_lookup?

/-- What can never be undone in a store. -/
structure Keeps (s s' : Store) : Prop where
  /-- A frame has the parent it was made with. -/
  parent?_eq : ∀ f < s.frames.size, s'.parent? f = s.parent? f
  /-- A bound name stays bound. -/
  isSome_get? : ∀ {f name}, ((s.bindings f).get? name).isSome →
    ((s'.bindings f).get? name).isSome

theorem Path.keeps {s' : Store} {log : List Change} (h : s.Path log s') : s.Keeps s' where
  parent?_eq _ := h.parent?_eq
  isSome_get? := h.isSome_get?

end Store

/-! ## Going on -/

/-- What has happened so far. -/
structure History where
  /-- The store at this time. -/
  store : Store
  /-- The values that were given by evaluations and calls, or read from frames. -/
  obtained : List Value
  /-- What could be observed. -/
  events : List Event

namespace History

/-- Nothing has happened. -/
def start : History := ⟨.empty, [], []⟩

/-- One operation from outside. An evaluation and a call give a value unless there is a fault. -/
inductive Step (h : History) : History → Prop
  /-- A new root. -/
  | newRoot : Step h ⟨(h.store.newFrame none).2, h.obtained, h.events⟩
  /-- A new child of an existing frame. -/
  | newChild {p : FrameId} (hp : p < h.store.frames.size) :
    Step h ⟨(h.store.newFrame (some p)).2, h.obtained, h.events⟩
  /-- A form enters the session. -/
  | newForm : Step h ⟨h.store.newForm.2, h.obtained, h.events⟩
  /-- A name is looked up. -/
  | lookup {f : FrameId} {name : String} {v : Value} (hv : h.store.lookup? f name = some v) :
    Step h ⟨h.store, h.obtained ++ [v], h.events⟩
  /-- A value that was obtained is bound in an existing frame. -/
  | bind {f : FrameId} {name : String} {v : Value} {r : Run Unit} (hf : f < h.store.frames.size)
    (hv : v ∈ h.obtained) (hr : Action.bindName f name v h.store = some r) :
    Step h ⟨r.store, h.obtained, h.events ++ r.events⟩
  /-- An expression is evaluated in an existing frame. -/
  | eval {depth : Nat} {site : Site} {f : FrameId} {e : Expr} {r : Run Value}
    (hf : f < h.store.frames.size) (hr : LexicalLisp.eval depth site f e h.store = some r) :
    Step h ⟨r.store, h.obtained ++ r.result.toOption.toList, h.events ++ r.events⟩
  /-- A closure that was obtained is called on values that were obtained. -/
  | call {depth : Nat} {c : Closure} {args : List Value} {r : Run Value}
    (hc : .closure c ∈ h.obtained) (hargs : ∀ v ∈ args, v ∈ h.obtained)
    (hr : c.run depth args h.store = some r) :
    Step h ⟨r.store, h.obtained ++ r.result.toOption.toList, h.events ++ r.events⟩
  /-- A session starts over. -/
  | reset {session : Session} {r : Run Session} (hr : session.reset h.store = some r) :
    Step h ⟨r.store, h.obtained, h.events ++ r.events⟩

/-- What holds of every history. -/
structure Sound (h : History) : Prop where
  /-- The store is one that a run can reach. -/
  reachable : h.store.Reachable
  /-- What was obtained can be bound. -/
  livesIn : ∀ v ∈ h.obtained, v.LivesIn h.store

/-- The changes lead from one history to a later one, and the later events tell of all bindings
among them. -/
def LeadsTo (h : History) (log : List Change) (h' : History) : Prop :=
  h.store.Path log h'.store ∧
    ∃ later, h'.events = h.events ++ later ∧
      log.filterMap Change.binding? = later.filterMap Event.binding?

variable {h h' h'' : History}

theorem LeadsTo.refl (h : History) : h.LeadsTo [] h := ⟨.nil, [], (List.append_nil _).symm, rfl⟩

theorem LeadsTo.trans {log log' : List Change} (hlog : h.LeadsTo log h')
    (hlog' : h'.LeadsTo log' h'') : h.LeadsTo (log ++ log') h'' := by
  obtain ⟨hpath, later, hevents, htold⟩ := hlog
  obtain ⟨hpath', later', hevents', htold'⟩ := hlog'
  refine ⟨hpath.append hpath', later ++ later', ?_, ?_⟩
  · rw [hevents', hevents, List.append_assoc]
  · rw [List.filterMap_append, List.filterMap_append, htold, htold']

theorem LeadsTo.of_logged {α : Type} {r : Run α} (hr : r.Logged h.store) (vs : List Value) :
    ∃ log, h.LeadsTo log ⟨r.store, vs, h.events ++ r.events⟩ := by
  obtain ⟨log, hpath, hlog⟩ := hr
  exact ⟨log, hpath, r.events, rfl, hlog⟩

theorem LeadsTo.of_silent {log : List Change} {s' : Store} (hpath : h.store.Path log s')
    (hlog : log.filterMap Change.binding? = []) (vs : List Value) :
    h.LeadsTo log ⟨s', vs, h.events⟩ := ⟨hpath, [], (List.append_nil _).symm, hlog⟩

theorem sound_start : start.Sound where
  reachable := .empty
  livesIn _ hv := nomatch hv

theorem Sound.later (hh : h.Sound) {s' : Store} (hs' : s'.Reachable)
    (hle : h.store.frames.size ≤ s'.frames.size) (es : List Event) :
    Sound ⟨s', h.obtained, es⟩ where
  reachable := hs'
  livesIn v hv := (hh.livesIn v hv).mono hle

theorem Sound.obtain (hh : h.Sound) {result : Except Fault Value} {s' : Store}
    (hs' : s'.Reachable) (hyields : h.store.Yields result s') (es : List Event) :
    Sound ⟨s', h.obtained ++ result.toOption.toList, es⟩ where
  reachable := hs'
  livesIn v hv := by
    rcases List.mem_append.mp hv with hv | hv
    · exact (hh.livesIn v hv).mono hyields.size_le
    · cases result with
      | error fault => cases hv
      | ok w =>
        obtain rfl := List.mem_singleton.mp hv
        exact hyields.livesIn v rfl

theorem logs_reset (session : Session) (s : Store) : (session.reset).Logs s :=
  (Action.logs_emit rfl).bind fun _ _ _ _ _ ↦
    (Action.logs_newFrame none).bind fun _ _ _ _ _ ↦ Action.logs_pure _

/-- No operation destroys soundness, and each is a sequence of changes. -/
theorem Sound.step (hh : h.Sound) (hstep : Step h h') : h'.Sound ∧ ∃ log, h.LeadsTo log h' := by
  have hwf := hh.reachable.wellFormed
  cases hstep with
  | newRoot =>
    exact ⟨hh.later (hh.reachable.step .newRoot) (by simp) _, _,
      .of_silent (.newFrame .nil none) rfl _⟩
  | newChild hp =>
    exact ⟨hh.later (hh.reachable.step (.newChild hp)) (by simp) _, _,
      .of_silent (.newFrame .nil (some _)) rfl _⟩
  | newForm =>
    exact ⟨hh.later (hh.reachable.step .newForm) (Nat.le_refl _) _, _,
      .of_silent (.newForm .nil) rfl _⟩
  | @lookup f name v hv =>
    refine ⟨⟨hh.reachable, fun w hw ↦ ?_⟩, _, .of_silent .nil rfl _⟩
    rcases List.mem_append.mp hw with hw | hw
    · exact hh.livesIn w hw
    · obtain rfl := List.mem_singleton.mp hw
      exact hwf.livesIn_of_lookup? hv
  | @bind f name v r hf hv hr =>
    refine ⟨?_, LeadsTo.of_logged (Action.logs_bindName hf name v r hr) _⟩
    cases hr
    exact hh.later (hh.reachable.step (.bind hf (hh.livesIn v hv))) (by simp) _
  | @eval depth site f e r hf hr =>
    have hyields := eval_yields depth site f e h.store hwf hf r hr
    exact ⟨hh.obtain (hh.reachable.step (.eval hf hr)) hyields _,
      LeadsTo.of_logged (eval_logs depth site e h.store hf r hr) _⟩
  | @call depth c args r hc hargs hr =>
    have hframe : c.frame < h.store.frames.size := hh.livesIn (.closure c) hc
    have hlive : ∀ v ∈ args, v.LivesIn h.store := fun v hv ↦ hh.livesIn v (hargs v hv)
    have hyields := Closure.run_yields depth hwf hframe hlive r hr
    exact ⟨hh.obtain (hh.reachable.step (.run hframe hlive hr)) hyields _,
      LeadsTo.of_logged (Closure.run_logs depth c args h.store r hr) _⟩
  | @reset session r hr =>
    refine ⟨?_, LeadsTo.of_logged (logs_reset session h.store r hr) _⟩
    cases hr
    exact hh.later (hh.reachable.step .newRoot) (by simp) _

/-- No sequence of operations destroys soundness, and each is a sequence of changes. -/
theorem Sound.run (hh : h.Sound) (hrun : ReflTransGen Step h h') :
    h'.Sound ∧ ∃ log, h.LeadsTo log h' := by
  induction hrun with
  | refl => exact ⟨hh, [], .refl h⟩
  | tail _ hstep ih =>
    obtain ⟨hsound, log, hlog⟩ := ih
    obtain ⟨hsound', log', hlog'⟩ := hsound.step hstep
    exact ⟨hsound', log ++ log', hlog.trans hlog'⟩

/-! ## The invariant -/

/-- **The invariant of the store.** In every history the parent of a frame is older than the frame,
so that chains are finite and leave no link out. A name in a frame has the value that it was bound
to last, and if this is a closure, it captured an existing frame; it is held as a back reference if
and only if it captured the frame that holds it. A bound name resolves. And whatever happens later,
no frame gets another parent, and no name loses its binding. -/
theorem store_invariant (hrun : ReflTransGen Step start h) (hlater : ReflTransGen Step h h') :
    (∃ log, start.LeadsTo log h ∧ h.store.Consistent log) ∧ h.store.Keeps h'.store := by
  obtain ⟨hsound, log, hlog⟩ := sound_start.run hrun
  obtain ⟨-, log', hpath', -⟩ := hsound.run hlater
  exact ⟨⟨log, hlog, hsound.reachable.wellFormed.consistent hlog.1⟩, hpath'.keeps⟩

/-- A recursive function is held as a back reference by the root in which it was defined, so what
was bound is a closure over this root, and the name is still bound after the session has started
over. -/
theorem store_invariant_recursive_definition :
    ∃ h h' : History, ReflTransGen Step start h ∧ ReflTransGen Step h h' ∧
      (∃ log, start.LeadsTo log h ∧
        ∃ lambda, lastBound log 0 "f" = some (.closure ⟨lambda, 0⟩)) ∧
      h'.store.frames.size = 2 ∧ ((h'.store.bindings 0).get? "f").isSome := by
  let root : Store := (Store.empty.newFrame none).2
  let body : Expr := .call (.symbol "f") [.symbol "x"]
  let c : Closure := ⟨⟨[0, 0], ["x"], body⟩, 0⟩
  let h : History := ⟨root.bind 0 "f" (.closure c), [.closure c], [.bind "f" (.closure c)]⟩
  have heval : eval 2 [0] 0 (.definition "f" (.lambda ["x"] body)) root =
      some ⟨.ok (.closure c), h.store, h.events⟩ := rfl
  have hdefine := Step.eval (h := ⟨root, [], []⟩) Nat.zero_lt_one heval
  have hrun : ReflTransGen Step start h := (ReflTransGen.single .newRoot).tail hdefine
  let session : Session := ⟨OperatorTable.full, 0⟩
  let h' : History := ⟨(h.store.newFrame none).2, h.obtained, h.events ++ [.reset]⟩
  have hreset : session.reset h.store =
      some ⟨.ok { session with root := 1 }, h'.store, [.reset]⟩ := rfl
  have hlater : ReflTransGen Step h h' := .single (Step.reset hreset)
  obtain ⟨⟨log, hlog, hstore⟩, hkeeps⟩ := store_invariant hrun hlater
  have hentry : (h.store.bindings 0).get? "f" = some (.own c.lambda) := by decide
  have hbound : ((h.store.bindings 0).get? "f").isSome := by
    rw [hentry]
    rfl
  exact ⟨h, h', hrun, hlater, ⟨log, hlog, (hstore.isOwn_iff hentry).mp rfl⟩, rfl,
    hkeeps.isSome_get? hbound⟩

end History

end LexicalLisp
