import LexicalLisp.Proofs.Evaluation.Repeatable
import LexicalLisp.Proofs.Sessions.Answers

/-!
# Starting over

When a session starts over, it gets a new root, and the old frames stay. Neither side of this moment
has an influence on the other. The new root has no way to the old frames, and so the session answers
like a new one (`Course.answers_reset`). And the old frames remain what they were, whatever is bound
or applied later: a session writes to its root and to the frames of calls, and all of these are
younger (`Discipline.Rooted.frozen`). So the closures that were kept go on giving the answers that
they gave.

The last point has a limit. A closure that was made after the session started over looks its names
up in the new root, and when it is handed to a closure that was kept, the answer depends on what is
bound there at the time (`Course.answer_changes_with_new_argument`).
-/

namespace LexicalLisp

open Relation LexicalLisp.Action LexicalLisp.Correspondence LexicalLisp.Discipline

namespace Discipline.Rooted

/-- Sessions keep their stores well-formed, and what was obtained lives there. -/
def living : Rooted .any where
  toDiscipline := Discipline.living
  root s f := f < s.frames.size
  root_later h hf := Nat.lt_of_lt_of_le hf h
  cause_any _ := trivial
  value_input _ _ h := Value.livesIn_of_ne_closure h
  expr_input hf _ := hf
  expr_spelled hf _ := hf
  lookup_root hs _ h := hs.livesIn_of_lookup? h
  bind_root name hs hf hv := ⟨Nat.le_of_eq (Store.size_bind ..).symm, hs.bind hf name hv⟩
  newForm hs := ⟨Nat.le_refl _, hs.newForm⟩
  newRoot := by
    intro s hs
    have hlt : s.frames.size < (s.newFrame none).2.frames.size := by simp
    have hwf : (s.newFrame none).2.WellFormed := hs.newFrame fun _ hp ↦ nomatch hp
    exact ⟨Nat.le_of_lt hlt, hwf, hlt⟩

theorem living_start (table : OperatorTable) : living.Holds (.start table) where
  store := Store.wellFormed_empty.newFrame fun _ hp ↦ nomatch hp
  root := Nat.zero_lt_one
  obtained _ h := nomatch h

end Discipline.Rooted

/-- That the frames of an earlier store are unchanged is a discipline, as long as evaluation begins
in a younger frame. -/
def Discipline.frozen (s₀ : Store) : Discipline where
  store s := s₀.Extends s
  later _ _ := True
  value _ _ := True
  expr _ f _ := s₀.frames.size ≤ f
  cause _ := True
  later_refl _ := trivial
  later_trans _ _ := trivial
  value_later _ _ := trivial
  expr_later _ hf := hf
  integer _ _ := trivial
  bool _ _ := trivial
  cause_of_dynamic _ _ := trivial
  literal _ := ⟨fun _ _ ↦ trivial, fun _ _ ↦ trivial⟩
  symbol _ _ := ⟨fun _ _ ↦ trivial, fun _ ↦ trivial⟩
  conditional hf := ⟨hf, hf, hf⟩
  binary hf := ⟨hf, hf⟩
  call hf := ⟨hf, fun _ _ ↦ hf⟩
  lambda _ _ := trivial
  definition hf _ := hf
  bind hs hf _ := ⟨trivial, hs.bind hf _ _⟩
  bind_lambda _ hs hf := ⟨trivial, hs.bind hf _ _, trivial⟩
  enter hs _ _ _ := ⟨trivial, Store.bindAll_induction (hs.newFrame _) fun _ hs' b _ ↦
    hs'.bind hs.size_le b.1 b.2, hs.size_le⟩

/-- A session whose root is younger than an earlier store keeps the frames of this store
unchanged. -/
def Discipline.Rooted.frozen (I : Inputs) (s₀ : Store) : Rooted I where
  toDiscipline := Discipline.frozen s₀
  root _ f := s₀.frames.size ≤ f
  root_later _ hf := hf
  cause_any _ := trivial
  value_input _ _ _ := trivial
  expr_input hf _ := hf
  expr_spelled hf _ := hf
  lookup_root _ _ _ := trivial
  bind_root name hs hf _ := ⟨trivial, hs.bind hf name _⟩
  newForm hs := ⟨trivial, hs.size_le, hs.frame_eq⟩
  newRoot hs := ⟨trivial, hs.newFrame none, hs.size_le⟩

theorem Discipline.Rooted.frozen_reset (I : Inputs) (c : Course) :
    (frozen I c.store).Holds c.reset where
  store := (Store.Extends.refl c.store).newFrame none
  root := Nat.le_refl _
  obtained _ _ := trivial

/-- Two runs of a closure that cannot be told apart, except that a closure over a frame that did not
exist before the first one is another closure. -/
structure SameRun (existing : Nat) (r r' : Run Value) : Prop where
  answer : SameAnswer existing r.result r'.result
  events : r'.events.map Event.shown = r.events.map Event.shown

/-- A call has the same run in a store and in every store that has got further frames since. -/
theorem Closure.sameRun_of_extends {s s' : Store} (hs : s.WellFormed) (h : s.Extends s')
    (hlt : s.frames.size < s'.frames.size) (depth : Nat) {c : Closure} {args : List Value}
    (hc : c.frame < s.frames.size) (hargs : ∀ v ∈ args, v.LivesIn s) :
    Option.Rel (SameRun s.frames.size) (c.run depth args s) (c.run depth args s') := by
  have hruns := run_alike_of_extends hs h depth hc hargs
  generalize c.run depth args s = x, c.run depth args s' = y at hruns ⊢
  cases hruns with
  | none => exact .none
  | some hr =>
    have hpos : 0 < s'.frames.size - s.frames.size := Nat.sub_pos_of_lt hlt
    exact .some ⟨sameAnswer_of_results hr.result fun _ _ _ ↦ hpos,
      map_shown_eq shift_keepsTexts hr.events⟩

namespace Course

/-- **Starting over separates sessions.** At any time in the course of a session let it start over.
Then it answers like a new session with the same operators, whatever it is asked. And whatever is
done with it, also with closures that were kept, no frame that existed before ever changes; hence a
closure that was kept gives the same answer as before, if the closures among its arguments were kept
as well. -/
theorem reset_separates {table : OperatorTable} {c : Course}
    (hc : ReflTransGen (Step .any) (start table) c) :
    (∀ depth requests,
      c.reset.answers depth requests = (start c.session.operators).answers depth requests) ∧
    ∀ c', ReflTransGen (Step .any) c.reset c' →
      (∀ f < c.store.frames.size, c'.store.frames[f]? = c.store.frames[f]?) ∧
      ∀ depth closure args, .closure closure ∈ c.obtained → (∀ v ∈ args, c.Offers .any v) →
        Option.Rel (SameRun c.store.frames.size) (closure.run depth args c.store)
          (closure.run depth args c'.store) := by
  obtain ⟨-, hliving⟩ := (Rooted.living_start table).run hc
  refine ⟨fun depth requests ↦ c.answers_reset depth requests, fun c' hc' ↦ ?_⟩
  -- One discipline keeps the old frames as they are; by the other one, closures and arguments that
  -- were obtained before need no frames but these.
  obtain ⟨-, hfrozen⟩ := (Rooted.frozen_reset .any c).run hc'
  have hext : c.store.Extends c'.store := hfrozen.store
  refine ⟨hext.frame_eq, fun depth closure args hclosure hargs ↦ ?_⟩
  have hlt : c.store.frames.size < c'.store.frames.size := by
    obtain ⟨-, hreset⟩ := hliving.step .reset
    obtain ⟨hlater, -⟩ := hreset.run hc'
    exact Nat.lt_of_lt_of_le hreset.root hlater
  exact closure.sameRun_of_extends hliving.store hext hlt depth (hliving.obtained _ hclosure)
    fun v hv ↦ hliving.offered (hargs v hv)

private theorem step_define (c : Course) (name : String) (t : Bool) : Step .any c
    (c.after (c.store.bind c.session.root name (.bool t)) [.bool t]) := by
  let e : Expr := .definition name (.literal (.bool t))
  have hr : c.session.evalForm 2 ⟨0, e⟩ c.store = some ⟨.ok (.bool t),
      c.store.bind c.session.root name (.bool t), [.evaluating e, .bind name (.bool t)]⟩ := rfl
  exact .evalForm trivial hr

private theorem step_lambda (c : Course) (number : Nat) (params : List String) (body : Expr) :
    Step .any c (c.after c.store [.closure ⟨⟨[number], params, body⟩, c.session.root⟩]) := by
  have hr : c.session.evalForm 1 ⟨number, .lambda params body⟩ c.store =
      some ⟨.ok (.closure ⟨⟨[number], params, body⟩, c.session.root⟩), c.store,
        [.evaluating (.lambda params body)]⟩ := rfl
  exact .evalForm trivial hr

/-- A closure that reads a name is kept, and the name is bound to something else after the session
started over: the closure still gives the old value. -/
theorem reset_separates_rebound_name :
    ∃ c c' : Course, ReflTransGen (Step .any) (start .full) c ∧
      ReflTransGen (Step .any) c.reset c' ∧ c'.store.local? 1 "k" = some (.bool false) ∧
      c.reset.answers 3 [.evalString "k", .keys] =
        (start .full).answers 3 [.evalString "k", .keys] ∧
      ∃ closure, .closure closure ∈ c.obtained ∧
        (closure.run 2 [] c'.store).map (·.result.toOption) = some (some (.bool true)) := by
  let c₀ := (start .full).after ((start .full).store.bind 0 "k" (.bool true)) [.bool true]
  let kept : Closure := ⟨⟨[1], [], .symbol "k"⟩, 0⟩
  let c := c₀.after c₀.store [.closure kept]
  have hc : ReflTransGen (Step .any) (start .full) c :=
    (ReflTransGen.single (step_define _ "k" true)).tail (step_lambda c₀ 1 [] (.symbol "k"))
  let c' := c.reset.after (c.reset.store.bind 1 "k" (.bool false)) [.bool false]
  have hc' : ReflTransGen (Step .any) c.reset c' := .single (step_define c.reset "k" false)
  obtain ⟨hanswers, hlater⟩ := reset_separates hc
  obtain ⟨-, hsame⟩ := hlater c' hc'
  have hkept : .closure kept ∈ c.obtained := List.mem_append_right _ (List.mem_singleton_self _)
  have hruns := hsame 2 kept [] hkept fun _ hv ↦ nomatch hv
  have hbefore : (kept.run 2 [] c.store).map (·.result.toOption) = some (some (.bool true)) := by
    decide +kernel
  refine ⟨c, c', hc, hc', by decide, hanswers _ _, kept, hkept, ?_⟩
  generalize kept.run 2 [] c.store = x, kept.run 2 [] c'.store = y at hruns hbefore ⊢
  cases hruns with
  | none => cases hbefore
  | @some r r' hrun =>
    obtain ⟨hanswer, -⟩ := hrun
    rw [Option.map_some] at hbefore ⊢
    generalize r.result = result, r'.result = result' at hanswer hbefore ⊢
    cases hanswer with
    | value => exact hbefore
    | closure | fault => cases hbefore

/-- A closure that calls its argument is kept, and the argument is a closure that was made after the
session started over and reads a name in the new root. The name is bound again in between, and the
same application gives another answer. -/
theorem answer_changes_with_new_argument :
    ∃ c c₁ c₂ : Course, ReflTransGen (Step .any) (start .full) c ∧
      ReflTransGen (Step .any) c.reset c₁ ∧ ReflTransGen (Step .any) c₁ c₂ ∧
      ∃ closure argument answer, .closure closure ∈ c.obtained ∧ argument ∈ c₁.obtained ∧
        (closure.run 4 [argument] c₁.store).map (·.result.toOption) = some (some (.bool true)) ∧
        (closure.run 4 [argument] c₂.store).map (·.result.toOption) = some answer ∧
        answer ≠ some (.bool true) := by
  let kept : Closure := ⟨⟨[0], ["g"], .call (.symbol "g") []⟩, 0⟩
  let c := (start .full).after (start .full).store [.closure kept]
  let argument : Value := .closure ⟨⟨[1], [], .symbol "k"⟩, 1⟩
  let c₀ := c.reset.after (c.reset.store.bind 1 "k" (.bool true)) [.bool true]
  let c₁ := c₀.after c₀.store [argument]
  let c₂ := c₁.after (c₁.store.bind 1 "k" (.bool false)) [.bool false]
  have hc : ReflTransGen (Step .any) (start .full) c := .single (step_lambda _ 0 ["g"] _)
  have hc₁ : ReflTransGen (Step .any) c.reset c₁ :=
    (ReflTransGen.single (step_define c.reset "k" true)).tail (step_lambda c₀ 1 [] (.symbol "k"))
  have hc₂ : ReflTransGen (Step .any) c₁ c₂ := .single (step_define c₁ "k" false)
  refine ⟨c, c₁, c₂, hc, hc₁, hc₂, kept, argument, some (.bool false), ?_, ?_, ?_, ?_, nofun⟩
  · exact List.mem_singleton_self _
  · exact List.mem_append_right _ (List.mem_singleton_self _)
  · decide +kernel
  · decide +kernel

end Course

end LexicalLisp
