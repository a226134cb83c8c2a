import LexicalLisp.Proofs.Evaluation.Discipline
import LexicalLisp.Proofs.Evaluation.InPlace
import LexicalLisp.Proofs.Evaluation.Simulation

/-!
# What does not matter to an evaluation

A binding matters to an evaluation only if its name is referred to, in the expression or in the body
of a closure that the evaluation may come upon. Two stores that bind the other names alike are
therefore as good as the same: results and events are equal, and the stores at the end bind the
other names alike again (`eval_agreeOn`). In particular, a name to which nothing refers can be bound
to anything in any frame (`eval_bind_unmentioned`).

What refers to a name is a symbol that is evaluated. A definition or a parameter list that has the
name only binds it, and what it binds is irrelevant in the same way.
-/

namespace LexicalLisp

/-! ## Stores that agree on some names -/

namespace Store

/-- The two stores have the same frames, and these bind the visible names alike. -/
structure AgreeOn (visible : String → Prop) (s s' : Store) : Prop where
  size_eq : s'.frames.size = s.frames.size
  parent?_eq : ∀ f, s'.parent? f = s.parent? f
  get?_eq : ∀ f name, visible name → (s'.bindings f).get? name = (s.bindings f).get? name

theorem agreeOn_bind (s : Store) (f : FrameId) (name : String) (v : Value) :
    s.AgreeOn (· ≠ name) (s.bind f name v) where
  size_eq := s.size_bind f name v
  parent?_eq g := s.parent?_bind f g name v
  get?_eq g other hother := by
    by_cases hf : f < s.frames.size
    · by_cases hg : g = f
      · subst hg
        rw [bindings_bind_self s hf, Bindings.get?_insert_of_ne _ hother]
      · rw [bindings_bind_of_ne s hg]
    · rw [bind_of_size_le s (Nat.not_lt.mp hf)]

theorem AgreeOn.eq {s s' : Store} (h : s.AgreeOn (fun _ ↦ True) s') (hforms : s'.forms = s.forms) :
    s' = s :=
  ext_bindings h.size_eq h.parent?_eq
    (fun f ↦ Bindings.ext_get? fun name ↦ h.get?_eq f name trivial) hforms

/-- The store with another number of forms. -/
def renumber (s : Store) (n : Nat) : Store := { s with forms := n }

theorem agreeOn_renumber (visible : String → Prop) (s : Store) (n : Nat) :
    s.AgreeOn visible (s.renumber n) := ⟨rfl, fun _ ↦ rfl, fun _ _ _ ↦ rfl⟩

end Store

/-- The run with another number of forms at its end. -/
def Run.renumber {α : Type} (r : Run α) (n : Nat) : Run α := { r with store := r.store.renumber n }

/-- The two runs have the same result and the same events, and leave stores that bind the visible
names alike. -/
structure Run.AgreeOn {α : Type} (visible : String → Prop) (r r' : Run α) : Prop where
  result_eq : r'.result = r.result
  events_eq : r'.events = r.events
  store : r.store.AgreeOn visible r'.store

/-! ## Agreement as a correspondence

Where everything visible stays as it is, corresponding runs agree on the visible names. -/

namespace Translation

variable {visible : String → Prop}

theorem refl_keepsTexts : (refl.correspondence visible).KeepsTexts where
  name_eq _ := rfl
  payload_iff := eq_comm
  defect_iff {d d'} := by
    change d' = refl.literal d ↔ d = d'
    rw [literal_refl, eq_comm]

/-- Stores that agree on the visible names correspond, unless a visible closure refers to others. -/
theorem stores_of_agreeOn {s s' : Store} (hs : s.RefersOnlyTo visible) (h : s.AgreeOn visible s') :
    (refl.correspondence visible).Stores s s' := by
  refine stores_of hs h.size_eq h.parent?_eq fun f name hname ↦ ?_
  rw [funext Entry.translate_refl, Option.map_id']
  exact h.get?_eq f name hname

theorem agreeOn_of_stores {s s' : Store} (h : (refl.correspondence visible).Stores s s') :
    s.AgreeOn visible s' where
  size_eq := size_eq h
  parent?_eq := parent?_eq h
  get?_eq f name hname := by
    have hget := get?_eq h f hname
    rwa [funext Entry.translate_refl, Option.map_id'] at hget

theorem agreeOn_of_runs {r r' : Run Value}
    (h : (refl.correspondence visible).Runs (refl.correspondence visible).Values r r') :
    r.AgreeOn visible r' where
  result_eq := by
    obtain ⟨result, s, es⟩ := r
    obtain ⟨result', s', es'⟩ := r'
    cases h.result with
    | ok hv => rw [values_eq hv, Value.translate_refl]
    | error hx => rw [hx.eq refl_keepsTexts]
  events_eq := by
    rw [map_events_eq h.events, funext Event.translate_refl, List.map_id']
  store := agreeOn_of_stores h.store

end Translation

/-! ## What does not matter to an evaluation -/

/-- An evaluation that comes upon visible names only is the same in stores that agree on them. -/
theorem eval_agreeOn {visible : String → Prop} {e : Expr} (he : ∀ n ∈ e.references, visible n)
    {s s' : Store} (hs : s.RefersOnlyTo visible) (h : s.AgreeOn visible s') (depth : Nat)
    (site : Site) (f : FrameId) :
    Option.Rel (Run.AgreeOn visible) (eval depth site f e s) (eval depth site f e s') := by
  have hexprs : (Translation.refl.correspondence visible).Exprs e e :=
    Correspondence.exprs_refl Translation.refl_keepsTexts he
  have hruns := Correspondence.eval_alike depth (p := site) rfl f hexprs s s'
    (Translation.stores_of_agreeOn hs h)
  change Option.Rel _ (eval depth site f e s) (eval depth site f e s') at hruns
  generalize eval depth site f e s = x, eval depth site f e s' = y at hruns ⊢
  cases hruns with
  | none => exact .none
  | some hr => exact .some (Translation.agreeOn_of_runs hr)

/-- **Bindings that nothing refers to are irrelevant.** Let a name be bound to any value in any
frame, before an expression is evaluated that does not refer to it. If no closure that is bound to
another name refers to it either, then the evaluation ends if it has ended before, with the same
value or fault and the same events, and it leaves the same frames with the same bindings of all
other names. -/
theorem eval_bind_unmentioned {n : String} {e : Expr} (he : n ∉ e.references) {s : Store}
    (hs : ∀ f name c, name ≠ n → s.local? f name = some (.closure c) →
      n ∉ c.lambda.body.references)
    (depth : Nat) (site : Site) (f g : FrameId) (v : Value) :
    Option.Rel (Run.AgreeOn (· ≠ n)) (eval depth site f e s)
      (eval depth site f e (s.bind g n v)) := by
  have hother : ∀ {names : List String}, n ∉ names → ∀ name ∈ names, name ≠ n :=
    fun hn name hname heq ↦ hn (heq ▸ hname)
  have hclosures : s.RefersOnlyTo (· ≠ n) := fun f name c hname hc ↦ hother (hs f name c hname hc)
  exact eval_agreeOn (hother he) hclosures (s.agreeOn_bind g n v) depth site f

/-- The name is a parameter of the closure that is called and is defined again, in its body and
after the call. It makes no difference that a closure was bound to it that refers to it. -/
theorem eval_bind_unmentioned_parameter :
    let l : Lambda := ⟨[0], ["n"], .definition "n" (.literal (.bool true))⟩
    let s := (Store.empty.newFrame none).2.bind 0 "f" (.closure ⟨l, 0⟩)
    let v := Value.closure ⟨⟨[1], [], .symbol "n"⟩, 0⟩
    let e := Expr.definition "n" (.call (.symbol "f") [.literal (.bool false)])
    ∃ r r', eval 4 [2] 0 e s = some r ∧ eval 4 [2] 0 e (s.bind 0 "n" v) = some r' ∧
      r.AgreeOn (· ≠ "n") r' := by
  intro l s v e
  have hs : ∀ f name c, name ≠ "n" → s.local? f name = some (.closure c) →
      "n" ∉ c.lambda.body.references := by
    intro f name c _ hc
    rw [Store.local?_bind, Store.local?_newFrame] at hc
    split at hc
    · cases hc
      decide
    · cases hc
  obtain ⟨r, hr⟩ := Option.isSome_iff_exists.mp
    (show (eval 4 [2] 0 e s).isSome = true by decide +kernel)
  have hrel := eval_bind_unmentioned (show "n" ∉ e.references by decide) hs 4 [2] 0 0 v
  rw [hr] at hrel
  generalize eval 4 [2] 0 e (s.bind 0 "n" v) = second at hrel ⊢
  cases hrel with
  | @some _ r' h => exact ⟨r, r', hr, rfl, h⟩

/-! ## The number of forms -/

/-- Evaluation gives no numbers to forms. -/
def Discipline.numbered (n : Nat) : Discipline where
  store s := s.forms = n
  later _ _ := True
  value _ _ := True
  expr _ _ _ := True
  cause _ := True
  later_refl _ := trivial
  later_trans _ _ := trivial
  value_later _ _ := trivial
  expr_later _ _ := trivial
  integer _ _ := trivial
  bool _ _ := trivial
  cause_of_dynamic _ _ := trivial
  literal _ := ⟨fun _ _ ↦ trivial, fun _ _ ↦ trivial⟩
  symbol _ _ := ⟨fun _ _ ↦ trivial, fun _ ↦ trivial⟩
  conditional _ := ⟨trivial, trivial, trivial⟩
  binary _ := ⟨trivial, trivial⟩
  call _ := ⟨trivial, fun _ _ ↦ trivial⟩
  lambda _ _ := trivial
  definition _ _ := trivial
  bind hs _ _ := ⟨trivial, hs⟩
  bind_lambda _ hs _ := ⟨trivial, hs, trivial⟩
  enter hs _ _ _ := ⟨trivial,
    Store.bindAll_induction (P := fun s ↦ s.forms = n) hs fun _ hs' _ _ ↦ hs', trivial⟩

theorem eval_forms {depth : Nat} {site : Site} {f : FrameId} {e : Expr} {s : Store} {r : Run Value}
    (hr : eval depth site f e s = some r) : r.store.forms = s.forms := by
  have hs : (Discipline.numbered s.forms).store s := rfl
  exact (eval_obeys (.numbered s.forms) depth site f e s hs trivial r hr).store

/-- With another number of forms, an evaluation is the same but for this number. -/
theorem eval_renumber (depth : Nat) (site : Site) (f : FrameId) (e : Expr) (s : Store) (n : Nat) :
    eval depth site f e (s.renumber n) = (eval depth site f e s).map (·.renumber n) := by
  have hrel : Option.Rel (Run.AgreeOn fun _ ↦ True) (eval depth site f e s)
      (eval depth site f e (s.renumber n)) :=
    eval_agreeOn (fun _ _ ↦ trivial) (fun _ _ _ _ _ _ _ ↦ trivial) (s.agreeOn_renumber _ n)
      depth site f
  generalize hx : eval depth site f e s = x, hy : eval depth site f e (s.renumber n) = y at hrel
  cases hrel with
  | none => rfl
  | @some r r' hr =>
    have hforms : r'.store.forms = n := eval_forms hy
    have hstore : r'.store = r.store.renumber n :=
      Store.AgreeOn.eq ⟨hr.store.size_eq, hr.store.parent?_eq, hr.store.get?_eq⟩ hforms
    obtain ⟨result, s', es⟩ := r
    obtain ⟨result', s'', es'⟩ := r'
    obtain ⟨hresult, hevents, -⟩ := hr
    cases hresult
    cases hevents
    cases hstore
    rfl

end LexicalLisp
