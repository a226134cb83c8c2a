import LexicalLisp.Proofs.Evaluation.FrameEffect
import LexicalLisp.Proofs.Evaluation.Reachable
import LexicalLisp.Proofs.Evaluation.Simulation

/-!
# Calling twice

A call that is made a second time right after it has ended gives the same answer
(`Closure.run_twice`). The second call finds the frames that the first one left over, and makes its
own frames behind them. But the first call has changed no frame that existed before it, so the two
stores correspond if the frames that do not exist yet are counted from behind the leftover ones,
and corresponding calls have corresponding runs.

Only one thing shows the shift: a closure that captured a frame made by the call is a different
closure the second time, since the second call has made another frame.
-/

namespace LexicalLisp

/-- Two answers of a closure that cannot be told apart, except that a closure over a frame that did
not exist before the first one is another closure. -/
inductive SameAnswer (existing : Nat) : Except Fault Value → Except Fault Value → Prop
  /-- Equal values. -/
  | value {v : Value} (hv : ∀ c, v ≠ .closure c) : SameAnswer existing (.ok v) (.ok v)
  /-- Closures of one lambda, and the same closure only if its frame existed before. -/
  | closure {c c' : Closure} (hlambda : c'.lambda = c.lambda)
    (hsame : (Value.closure c).same (.closure c') = true ↔ c.frame < existing) :
    SameAnswer existing (.ok (.closure c)) (.ok (.closure c'))
  /-- Equal faults. -/
  | fault (fault : Fault) : SameAnswer existing (.error fault) (.error fault)

/-! ## Frames left over -/

namespace Correspondence

private theorem shifted_lt_iff (n k f g : Nat) :
    (if f < n then f else f + k) < (if g < n then g else g + k) ↔ f < g := by
  split <;> split <;> omega

private theorem le_add_sub {n f : Nat} (m : Nat) (h : n ≤ f) : m ≤ f + (m - n) := by
  omega

/-- The runs differ in `k` frames that the second store has behind the first `n` ones. -/
def shift (n k : Nat) : Correspondence where
  frame g := if g < n then g else g + k
  frame_lt := shifted_lt_iff n k _ _
  site := (· = ·)
  site_cons := same.site_cons
  name := id
  name_inj h := h
  visible _ := True
  payload := (· = ·)
  defect := (· = ·)

variable {n k : Nat}

theorem shift_frame_of_lt {g : FrameId} (h : g < n) : (shift n k).frame g = g := if_pos h

theorem shift_frame_of_le {g : FrameId} (h : n ≤ g) : (shift n k).frame g = g + k :=
  if_neg (Nat.not_lt.mpr h)

theorem shift_keepsTexts : (shift n k).KeepsTexts := ⟨fun _ ↦ rfl, Iff.rfl, Iff.rfl⟩

theorem shift_values_refl {s : Store} {v : Value} (hv : v.LivesIn s) :
    (shift s.frames.size k).Values v v := by
  refine values_refl shift_keepsTexts (fun _ ↦ trivial) fun c hc ↦ ⟨rfl, ?_⟩
  subst hc
  exact shift_frame_of_lt hv

theorem shift_entries_refl {s : Store} {f : FrameId} {entry : Entry}
    (h : (entry.toValue f).LivesIn s) : (shift s.frames.size k).Entries entry entry := by
  cases entry with
  | value v => exact .value (shift_values_refl h)
  | own l => exact .own ⟨rfl, (List.map_id _).symm, exprs_refl shift_keepsTexts fun _ _ ↦ trivial⟩

theorem shift_stores {s s' : Store} (hs : s.WellFormed) (h : s.Extends s') :
    (shift s.frames.size (s'.frames.size - s.frames.size)).Stores s s' where
  frame_size j := by
    rw [shift_frame_of_le (Nat.le_add_right _ _), Nat.add_right_comm,
      Nat.add_sub_cancel' h.size_le]
  parent f := by
    by_cases hf : f < s.frames.size
    · rw [shift_frame_of_lt hf, h.parent?_eq hf]
      cases hp : s.parent? f with
      | none => rfl
      | some p =>
        have hlt : p < s.frames.size := Nat.lt_trans (hs.parent_lt hp) hf
        rw [Option.map_some, shift_frame_of_lt hlt]
    · have hf' : s.frames.size ≤ f := Nat.not_lt.mp hf
      rw [shift_frame_of_le hf', Store.parent?_of_size_le hf',
        Store.parent?_of_size_le (le_add_sub s'.frames.size hf')]
      rfl
  entries f name _ := by
    change Option.Rel _ ((s.bindings f).get? name) ((s'.bindings _).get? name)
    by_cases hf : f < s.frames.size
    · rw [shift_frame_of_lt hf, h.bindings_eq hf]
      cases hentry : (s.bindings f).get? name with
      | none => exact .none
      | some entry => exact .some (shift_entries_refl (hs.livesIn (Store.local?_of_get? hentry)))
    · have hf' : s.frames.size ≤ f := Nat.not_lt.mp hf
      rw [shift_frame_of_le hf', Store.bindings_of_size_le hf',
        Store.bindings_of_size_le (le_add_sub s'.frames.size hf')]
      exact .none

/-- Corresponding values are equal, but for closures over frames that are shifted. If there are any,
then there must be frames left over. -/
theorem sameAnswer_of_results {x y : Except Fault Value}
    (h : (shift n k).Results (shift n k).Values x y)
    (hpos : ∀ c, x = .ok (.closure c) → n ≤ c.frame → 0 < k) : SameAnswer n x y := by
  cases h with
  | error hx =>
    rw [hx.eq shift_keepsTexts]
    exact .fault _
  | ok hv =>
    cases hv with
    | integer value => exact .value fun _ h ↦ nomatch h
    | bool value => exact .value fun _ h ↦ nomatch h
    | quoted hd =>
      cases hd
      exact .value fun _ h ↦ nomatch h
    | @closure l l' f hl =>
      have hl' : l' = l := hl.eq shift_keepsTexts hl.site
      refine .closure hl' ?_
      simp only [Value.same, Closure.same, hl', beq_self_eq_true, Bool.true_and, beq_iff_eq]
      by_cases hf : f < n
      · simp [shift_frame_of_lt hf, hf]
      · have hk : 0 < k := hpos ⟨l, f⟩ rfl (Nat.not_lt.mp hf)
        rw [shift_frame_of_le (Nat.not_lt.mp hf)]
        exact iff_of_false (Nat.ne_of_lt (Nat.lt_add_of_pos_right hk)) hf

/-- A closure over a shifted frame that is one of the leftover ones is another closure. -/
theorem shift_sameAnswer {x y : Except Fault Value}
    (h : (shift n k).Results (shift n k).Values x y)
    (hlives : ∀ c, x = .ok (.closure c) → c.frame < n + k) : SameAnswer n x y :=
  sameAnswer_of_results h fun c hc hle ↦
    Nat.lt_add_right_iff_pos.mp (Nat.lt_of_le_of_lt hle (hlives c hc))

end Correspondence

/-! ## A call, and the same call later -/

open Correspondence

/-- A call has corresponding runs in a store and in every store that has got further frames
since. -/
theorem Closure.run_alike_of_extends {s s' : Store} (hs : s.WellFormed) (h : s.Extends s')
    (depth : Nat) {c : Closure} {args : List Value} (hc : c.frame < s.frames.size)
    (hargs : ∀ v ∈ args, v.LivesIn s) :
    let R := shift s.frames.size (s'.frames.size - s.frames.size)
    Option.Rel (R.Runs R.Values) (c.run depth args s) (c.run depth args s') := by
  intro R
  have hclosure : R.Values (.closure c) (.closure c) := shift_values_refl (s := s) hc
  have hargs' : List.Forall₂ R.Values args args :=
    List.forall₂_same.mpr fun v hv ↦ shift_values_refl (hargs v hv)
  exact run_alike depth hclosure hargs' s s' (shift_stores hs h)

/-- **Calls are repeatable.** A call that has ended ends again when it is made again right
afterwards, with the same answer and the same events. -/
theorem Closure.run_twice {s : Store} (hs : s.Reachable) {depth : Nat} {c : Closure}
    {args : List Value} (hc : c.frame < s.frames.size) (hargs : ∀ v ∈ args, v.LivesIn s)
    {r : Run Value} (hr : c.run depth args s = some r) :
    ∃ r', c.run depth args r.store = some r' ∧
      SameAnswer s.frames.size r.result r'.result ∧
      r'.events.map Event.shown = r.events.map Event.shown := by
  have hext : s.Extends r.store := c.run_extends depth args s r hr
  have hyields : s.Yields r.result r.store := run_yields depth hs.wellFormed hc hargs r hr
  have hruns := run_alike_of_extends hs.wellFormed hext depth hc hargs
  rw [hr] at hruns
  generalize c.run depth args r.store = second at hruns ⊢
  cases hruns with
  | @some _ r' hrun =>
    refine ⟨r', rfl, shift_sameAnswer hrun.result fun c' hc' ↦ ?_,
      map_shown_eq shift_keepsTexts hrun.events⟩
    have hlives : c'.frame < r.store.frames.size := hyields.livesIn (.closure c') hc'
    rwa [Nat.add_sub_cancel' hext.size_le]

/-- A closure that makes a closure over the frame of its call makes another one the second time. -/
theorem Closure.run_twice_lambda :
    let s := (Store.empty.newFrame none).2
    let c : Closure := ⟨⟨[0], ["x"], .lambda [] (.symbol "x")⟩, 0⟩
    ∃ r r', c.run 1 [.bool true] s = some r ∧ c.run 1 [.bool true] r.store = some r' ∧
      SameAnswer 1 r.result r'.result := by
  intro s c
  have hs : s.Reachable := .step .empty .newRoot
  obtain ⟨r, hr⟩ := Option.isSome_iff_exists.mp
    (show (c.run 1 [.bool true] s).isSome = true by decide +kernel)
  obtain ⟨r', hr', hsame, -⟩ := run_twice hs (by decide) (by simp [Value.LivesIn]) hr
  exact ⟨r, r', hr, hr', hsame⟩

end LexicalLisp
