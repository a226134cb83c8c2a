import LexicalLisp.Proofs.Evaluation.Ensures

/-!
# What evaluation does to the frames

Every frame can be reached by any closure that captured it or a descendant of it, and a definition
may stand anywhere in an expression. Still an evaluation writes to one of the existing frames
only, the one that it evaluates in, and there only the names of the definitions that stand in the
expression outside its lambdas (`eval_writesOnly`). A call writes to no existing frame at all
(`Closure.run_extends`), since its body is evaluated in a frame of its own.

The two facts need each other: a call occurs in expressions, and the body of a closure is an
expression. The induction is on the depth; a call uses the first fact for the body, in the store
that has the new frame already, and what the body writes there is no longer seen from outside
(`Store.WritesOnly.extends_of_le`).
-/

namespace LexicalLisp

/-! ## The names that an expression defines -/

namespace Expr

mutual

/-- The names of the definitions in an expression, those in its lambdas apart. -/
def definedNames : Expr → List String
  | .literal _ | .symbol _ | .lambda .. => []
  | .definition name value => name :: definedNames value
  | .conditional test yes no => definedNames test ++ definedNames yes ++ definedNames no
  | .binary _ left right => definedNames left ++ definedNames right
  | .call callee args => definedNames callee ++ definedNamesAll args

/-- The names of the definitions in a list of expressions, those in their lambdas apart. -/
def definedNamesAll : List Expr → List String
  | [] => []
  | e :: rest => definedNames e ++ definedNamesAll rest

end

theorem definedNames_subset_of_mem {e : Expr} {es : List Expr} (h : e ∈ es) :
    e.definedNames ⊆ definedNamesAll es := by
  induction es with
  | nil => cases h
  | cons a es ih =>
    rw [definedNamesAll]
    rcases List.mem_cons.mp h with rfl | h
    · exact List.subset_append_left _ _
    · exact List.Subset.trans (ih h) (List.subset_append_right _ _)

end Expr

/-! ## Changes of the store -/

namespace Store

/-- The later store has all frames of the earlier one, as they were. -/
structure Extends (s s' : Store) : Prop where
  /-- No frame is removed. -/
  size_le : s.frames.size ≤ s'.frames.size
  /-- The existing frames are unchanged. -/
  frame_eq : ∀ g < s.frames.size, s'.frames[g]? = s.frames[g]?

/-- The later store has all frames of the earlier one, and of these at most one has changed: some
of the given names have been bound there. -/
structure WritesOnly (f : FrameId) (names : List String) (s s' : Store) : Prop where
  /-- No frame is removed. -/
  size_le : s.frames.size ≤ s'.frames.size
  /-- The other existing frames are unchanged. -/
  frame_eq : ∀ g < s.frames.size, g ≠ f → s'.frames[g]? = s.frames[g]?
  /-- The frame keeps its place among the frames. -/
  parent_eq : f < s.frames.size → s'.parent? f = s.parent? f
  /-- The other names keep their entries. -/
  get?_eq : f < s.frames.size →
    ∀ name, name ∉ names → (s'.bindings f).get? name = (s.bindings f).get? name
  /-- A bound name stays bound. -/
  isSome_get? : f < s.frames.size →
    ∀ name, ((s.bindings f).get? name).isSome → ((s'.bindings f).get? name).isSome

variable {s s' s'' : Store} {f : FrameId} {names names' : List String}

theorem Extends.refl (s : Store) : s.Extends s := ⟨Nat.le_refl _, fun _ _ ↦ rfl⟩

theorem Extends.newFrame (h : s.Extends s') (parent : Option FrameId) :
    s.Extends (s'.newFrame parent).2 where
  size_le := Nat.le_trans h.size_le (by simp)
  frame_eq g hg :=
    (s'.frames_newFrame_of_lt parent (Nat.lt_of_lt_of_le hg h.size_le)).trans (h.frame_eq g hg)

/-- A binding in a frame that did not exist before is not seen from before. -/
theorem Extends.bind (h : s.Extends s') (hf : s.frames.size ≤ f) (name : String) (v : Value) :
    s.Extends (s'.bind f name v) where
  size_le := by simpa using h.size_le
  frame_eq g hg := by
    have hne : g ≠ f := Nat.ne_of_lt (Nat.lt_of_lt_of_le hg hf)
    exact (s'.frames_bind_of_ne hne name v).trans (h.frame_eq g hg)

theorem Extends.bindings_eq (h : s.Extends s') {g : FrameId} (hg : g < s.frames.size) :
    s'.bindings g = s.bindings g := by
  rw [bindings, h.frame_eq g hg, bindings]

theorem Extends.parent?_eq (h : s.Extends s') {g : FrameId} (hg : g < s.frames.size) :
    s'.parent? g = s.parent? g := by
  rw [parent?, h.frame_eq g hg, parent?]

theorem Extends.writesOnly (h : s.Extends s') : s.WritesOnly f names s' where
  size_le := h.size_le
  frame_eq g hg _ := h.frame_eq g hg
  parent_eq hf := h.parent?_eq hf
  get?_eq hf _ _ := by rw [h.bindings_eq hf]
  isSome_get? hf _ hname := by rwa [h.bindings_eq hf]

namespace WritesOnly

theorem refl (s : Store) : s.WritesOnly f names s := (Extends.refl s).writesOnly

theorem trans (h : s.WritesOnly f names s') (h' : s'.WritesOnly f names s'') :
    s.WritesOnly f names s'' where
  size_le := Nat.le_trans h.size_le h'.size_le
  frame_eq g hg hne :=
    (h'.frame_eq g (Nat.lt_of_lt_of_le hg h.size_le) hne).trans (h.frame_eq g hg hne)
  parent_eq hf := (h'.parent_eq (Nat.lt_of_lt_of_le hf h.size_le)).trans (h.parent_eq hf)
  get?_eq hf name hname :=
    (h'.get?_eq (Nat.lt_of_lt_of_le hf h.size_le) name hname).trans (h.get?_eq hf name hname)
  isSome_get? hf name hbound :=
    h'.isSome_get? (Nat.lt_of_lt_of_le hf h.size_le) name (h.isSome_get? hf name hbound)

theorem mono (h : s.WritesOnly f names s') (hsub : names ⊆ names') : s.WritesOnly f names' s' :=
  { h with get?_eq := fun hf name hname ↦ h.get?_eq hf name fun hmem ↦ hname (hsub hmem) }

theorem extends_of_le {t : Store} (ht : t.Extends s) (hf : t.frames.size ≤ f)
    (h : s.WritesOnly f names s') : t.Extends s' where
  size_le := Nat.le_trans ht.size_le h.size_le
  frame_eq g hg := by
    have hne : g ≠ f := Nat.ne_of_lt (Nat.lt_of_lt_of_le hg hf)
    exact (h.frame_eq g (Nat.lt_of_lt_of_le hg ht.size_le) hne).trans (ht.frame_eq g hg)

theorem parent?_eq (h : s.WritesOnly f names s') {g : FrameId} (hg : g < s.frames.size) :
    s'.parent? g = s.parent? g := by
  by_cases hne : g = f
  · subst hne
    exact h.parent_eq hg
  · rw [parent?, h.frame_eq g hg hne, parent?]

theorem bindings_eq (h : s.WritesOnly f names s') {g : FrameId} (hg : g < s.frames.size)
    (hne : g ≠ f) : s'.bindings g = s.bindings g := by
  rw [bindings, h.frame_eq g hg hne, bindings]

end WritesOnly

theorem writesOnly_bind (s : Store) (f : FrameId) {name : String} (hname : name ∈ names)
    (v : Value) : s.WritesOnly f names (s.bind f name v) where
  size_le := by simp
  frame_eq _ _ hne := s.frames_bind_of_ne hne name v
  parent_eq _ := s.parent?_bind f f name v
  get?_eq hf other hother := by
    have hne : other ≠ name := fun h ↦ hother (h ▸ hname)
    rw [bindings_bind_self s hf, Bindings.get?_insert_of_ne _ hne]
  isSome_get? hf other hbound := by
    rw [bindings_bind_self s hf]
    by_cases hother : other = name
    · rw [hother, Bindings.get?_insert_self]
      rfl
    · rwa [Bindings.get?_insert_of_ne _ hother]

end Store

/-! ## Evaluations and calls -/

open LexicalLisp.Action LexicalLisp.Expr LexicalLisp.Store

/-- If bodies write only to their own frames, a call writes to no existing frame. -/
theorem Closure.runWith_extends {evalBody : Site → FrameId → Expr → Action Value}
    (hbody : ∀ site f e s, (evalBody site f e).Ensures s fun _ s' ↦
      s.WritesOnly f e.definedNames s')
    (c : Closure) (args : List Value) (s : Store) :
    (c.runWith evalBody args).Ensures s fun _ s' ↦ s.Extends s' := by
  refine Action.ensures_runWith (fun _ ↦ .refl s) fun _ ↦ ?_
  have hbind : (bindAll s.frames.size (c.lambda.params.zip args)).Ensures
      (s.newFrame (some c.frame)).2 fun _ s' ↦ s.Extends s' :=
    ensures_bindAll _ (fun _ hs' p _ ↦ hs'.bind (Nat.le_refl _) p.1 p.2)
      ((Extends.refl s).newFrame _)
  exact hbind.seq fun _ s' hs' ↦
    (hbody _ _ c.lambda.body s').mono fun _ _ h ↦ h.extends_of_le hs' (Nat.le_refl _)

/-- Evaluation writes only to the frame it evaluates in, and binds there only names of definitions
of the expression. -/
theorem eval_writesOnly (depth : Nat) (site : Site) (f : FrameId) (e : Expr) (s : Store) :
    (eval depth site f e).Ensures s fun _ s' ↦ s.WritesOnly f e.definedNames s' := by
  -- The induction is on the depth and not on the expression, since it must reach the bodies of the
  -- closures that are called.
  induction depth generalizing site f e s with
  | zero => exact ensures_unfinished
  | succ depth ih =>
    -- What a part of the expression writes, after `t` has become `s'`.
    have part : ∀ {names : List String} {t s' : Store} (i : Nat) (a : Expr),
        a.definedNames ⊆ names → t.WritesOnly f names s' →
        (eval depth (i :: site) f a).Ensures s' fun _ s'' ↦ t.WritesOnly f names s'' :=
      fun i a hsub hs' ↦ (ih _ f a _).mono fun _ _ h ↦ hs'.trans (h.mono hsub)
    cases e with
    | literal datum => exact ensures_ofExcept (.refl s)
    | symbol name => exact ensures_lookup (fun _ _ ↦ .refl s) fun _ ↦ .refl s
    | definition name value =>
      have hvalue : value.definedNames ⊆ (definition name value).definedNames :=
        List.subset_cons_self _ _
      refine Ensures.seq (.within _ (part 0 value hvalue (.refl s))) fun v s₁ h₁ ↦ ?_
      have hbind : (bindName f name v).Ensures s₁ fun _ s' ↦
          s.WritesOnly f (definition name value).definedNames s' :=
        ensures_bindName (h₁.trans (s₁.writesOnly_bind f List.mem_cons_self v))
      exact hbind.seq fun _ s₂ h₂ ↦ ensures_pure h₂
    | conditional test yes no =>
      have htest : test.definedNames ⊆ (conditional test yes no).definedNames := by
        simp [definedNames]
      have hyes : yes.definedNames ⊆ (conditional test yes no).definedNames := by
        simp [definedNames]
      have hno : no.definedNames ⊆ (conditional test yes no).definedNames := by
        simp [definedNames]
      refine (part 0 test htest (.refl s)).seq fun v s₁ h₁ ↦ ?_
      split
      · exact part 1 yes hyes h₁
      · exact part 2 no hno h₁
    | binary op left right =>
      have hleft : left.definedNames ⊆ (binary op left right).definedNames :=
        List.subset_append_left _ _
      have hright : right.definedNames ⊆ (binary op left right).definedNames :=
        List.subset_append_right _ _
      refine (part 0 left hleft (.refl s)).seq fun a s₁ h₁ ↦ ?_
      exact (part 1 right hright h₁).seq fun b s₂ h₂ ↦ ensures_ofExcept h₂
    | lambda params body => exact ensures_pure (.refl s)
    | call callee args =>
      have hcallee : callee.definedNames ⊆ (call callee args).definedNames :=
        List.subset_append_left _ _
      have hargs : definedNamesAll args ⊆ (call callee args).definedNames :=
        List.subset_append_right _ _
      refine .within _ ((part 0 callee hcallee (.refl s)).seq fun v s₁ h₁ ↦ ?_)
      refine Ensures.seq (ensures_ofExcept h₁) fun c s₂ h₂ ↦ ?_
      have hall := ensures_evalAll (I := fun s' ↦ s.WritesOnly f (call callee args).definedNames s')
        args (fun i a ha s' hs' ↦
          part i a (List.Subset.trans (definedNames_subset_of_mem ha) hargs) hs') 1 h₂
      refine hall.seq fun vs s₃ h₃ ↦ ?_
      exact (c.runWith_extends ih vs s₃).mono fun _ _ h ↦ h₃.trans h.writesOnly

/-- A call writes to no existing frame, not even to the one that the closure captured. -/
theorem Closure.run_extends (depth : Nat) (c : Closure) (args : List Value) (s : Store) :
    (c.run depth args).Ensures s fun _ s' ↦ s.Extends s' :=
  c.runWith_extends (eval_writesOnly depth) args s

/-- **Frame effect of evaluation.** When an evaluation in an existing frame ends, in a value or in a
fault, the other existing frames have the bindings they had, the frame itself has lost no name, a
name whose binding there has changed is that of a definition outside the lambdas of the expression,
and no existing frame has another parent. When a call ends, every existing frame is what it was. -/
theorem frames_after_eval_and_run (depth : Nat) (s : Store) :
    (∀ site f e r, f < s.frames.size → eval depth site f e s = some r →
      (∀ g < s.frames.size, g ≠ f → r.store.bindings g = s.bindings g) ∧
      (∀ name, ((s.bindings f).get? name).isSome → ((r.store.bindings f).get? name).isSome) ∧
      (∀ name, (r.store.bindings f).get? name ≠ (s.bindings f).get? name →
        name ∈ e.definedNames) ∧
      ∀ g < s.frames.size, r.store.parent? g = s.parent? g) ∧
    ∀ (c : Closure) args r, c.run depth args s = some r →
      ∀ g < s.frames.size, r.store.frames[g]? = s.frames[g]? := by
  refine ⟨fun site f e r hf hr ↦ ?_, fun c args r hr ↦ (c.run_extends depth args s r hr).frame_eq⟩
  have h : s.WritesOnly f e.definedNames r.store := eval_writesOnly depth site f e s r hr
  refine ⟨fun g hg hne ↦ h.bindings_eq hg hne, h.isSome_get? hf, fun name hname ↦ ?_,
    fun g hg ↦ h.parent?_eq hg⟩
  exact Decidable.byContradiction fun hmem ↦ hname (h.get?_eq hf name hmem)

/-- A call that defines `y` in the body of its callee and `z` in its argument: the evaluation
binds no `y` in its own frame, and running the closure leaves that frame alone. -/
theorem frames_after_definitions_in_call :
    let s := (Store.empty.newFrame none).2
    let body := definition "y" (symbol "x")
    let e := call (lambda ["x"] body) [definition "z" (literal (.bool true))]
    let c : Closure := ⟨⟨[0, 0], ["x"], body⟩, 0⟩
    (∃ r, eval 4 [0] 0 e s = some r ∧ (r.store.bindings 0).get? "y" = none) ∧
      ∃ r, c.run 2 [.bool true] s = some r ∧ r.store.frames[0]? = s.frames[0]? := by
  intro s body e c
  constructor
  · obtain ⟨r, hr⟩ := Option.isSome_iff_exists.mp
      (show (eval 4 [0] 0 e s).isSome = true by decide +kernel)
    obtain ⟨-, -, hchanged, -⟩ :=
      (frames_after_eval_and_run 4 s).1 [0] 0 e r (by decide) hr
    refine ⟨r, hr, Decidable.byContradiction fun hbound ↦ ?_⟩
    have hy : "y" ∈ e.definedNames := hchanged "y" hbound
    exact absurd hy (by decide)
  · obtain ⟨r, hr⟩ := Option.isSome_iff_exists.mp
      (show (c.run 2 [.bool true] s).isSome = true by decide +kernel)
    exact ⟨r, hr, (frames_after_eval_and_run 2 s).2 c _ r hr 0 (by decide)⟩

end LexicalLisp
