import LexicalLisp.Proofs.Evaluation.Changes
import LexicalLisp.Proofs.Evaluation.Discipline

/-!
# Scope safety

A name is free in an expression if it is referred to outside the lambdas that have it as a
parameter. A definition of a function may refer to itself: its name is not free in it, since it is
bound before the function can be called.

If every closure in the store has its free names bound on the chain of the frame it captured, and
the free names of an expression are bound on the chain of the frame it is evaluated in, then no
evaluation, however deep, comes upon an unbound name (`evaluation_in_scope`). The store that it
leaves behind and the value that it gives have the same property again.

Nothing has to be assumed of the store besides, because bindings are never removed and chains never
change: what resolves once resolves for ever (`Store.Path.resolves`). The only closure that is made
before its free names are bound is that of a recursive definition, and it is judged in the store
after the definition (`Store.Closed.bind`).
-/

namespace LexicalLisp

/-! ## Free names -/

namespace Expr

mutual

/-- The names that an expression refers to outside the lambdas that bind them. In the definition of
a function its own name does not count. -/
def freeNames : Expr → List String
  | .literal _ => []
  | .symbol name => [name]
  | .definition name value =>
    if value.isLambda then (freeNames value).filter (· ≠ name) else freeNames value
  | .conditional test yes no => freeNames test ++ freeNames yes ++ freeNames no
  | .binary _ left right => freeNames left ++ freeNames right
  | .lambda params body => (freeNames body).filter (· ∉ params)
  | .call callee args => freeNames callee ++ freeNamesAll args

/-- The free names of a list of expressions. -/
def freeNamesAll : List Expr → List String
  | [] => []
  | e :: rest => freeNames e ++ freeNamesAll rest

end

theorem freeNames_subset_of_mem {e : Expr} {es : List Expr} (h : e ∈ es) :
    e.freeNames ⊆ freeNamesAll es := by
  induction es with
  | nil => cases h
  | cons a es ih =>
    rw [freeNamesAll]
    rcases List.mem_cons.mp h with rfl | h
    · exact List.subset_append_left _ _
    · exact List.Subset.trans (ih h) (List.subset_append_right _ _)

theorem mem_freeNames_lambda {params : List String} {body : Expr} {name : String} :
    name ∈ (lambda params body).freeNames ↔ name ∈ body.freeNames ∧ name ∉ params := by
  simp [freeNames]

end Expr

/-- The names that a lambda needs from where it stands. -/
def Lambda.freeNames (l : Lambda) : List String := (Expr.lambda l.params l.body).freeNames

/-! ## Names that resolve -/

namespace Store

variable {s s' : Store} {f g : FrameId} {name : String}

/-- The name is bound in the frame or in one of its ancestors. -/
def Resolves (s : Store) (f : FrameId) (name : String) : Prop := (s.lookup? f name).isSome = true

theorem resolves_iff : s.Resolves f name ↔ ∃ g ∈ s.chain f, (s.local? g name).isSome = true := by
  rw [Resolves, lookup?, List.findSome?_isSome_iff]

theorem chain_congr (h : ∀ g ≤ f, s'.parent? g = s.parent? g) : s'.chain f = s.chain f := by
  fun_induction s.chain f with
  | case1 f hp =>
    rw [chain, h f (Nat.le_refl f), hp]
  | case2 f p hp hlt ih =>
    rw [chain, h f (Nat.le_refl f), hp]
    simp only [hlt, if_true]
    rw [ih fun g hg ↦ h g (Nat.le_trans hg (Nat.le_of_lt hlt))]
  | case3 f p hp hlt =>
    rw [chain, h f (Nat.le_refl f), hp]
    simp only [hlt, if_false]

theorem Resolves.lt_size (h : s.Resolves f name) : f < s.frames.size := by
  obtain ⟨g, hg, hbound⟩ := resolves_iff.mp h
  have hlt : g < s.frames.size := by
    refine Nat.not_le.mp fun hle ↦ ?_
    rw [local?_of_size_le hle] at hbound
    cases hbound
  refine Nat.not_le.mp fun hle ↦ ?_
  -- the chain of such a frame is the frame alone
  rw [chain, parent?_of_size_le hle, List.mem_singleton] at hg
  exact Nat.not_lt.mpr hle (hg ▸ hlt)

theorem Path.resolves {log : List Change} (hpath : s.Path log s') (h : s.Resolves f name) :
    s'.Resolves f name := by
  have hf : f < s.frames.size := h.lt_size
  obtain ⟨g, hg, hbound⟩ := resolves_iff.mp h
  have hchain : s'.chain f = s.chain f :=
    chain_congr fun g hg ↦ hpath.parent?_eq (Nat.lt_of_le_of_lt hg hf)
  rw [local?, Option.isSome_map] at hbound
  refine resolves_iff.mpr ⟨g, hchain ▸ hg, ?_⟩
  rw [local?, Option.isSome_map]
  exact hpath.isSome_get? hbound

theorem resolves_bind_self (hf : f < s.frames.size) (name : String) (v : Value) :
    (s.bind f name v).Resolves f name := by
  refine resolves_iff.mpr ⟨f, mem_chain_self _ f, ?_⟩
  rw [local?_bind, if_pos ⟨hf, rfl, rfl⟩]
  rfl

theorem Resolves.newFrame (h : s.Resolves f name) :
    (s.newFrame (some f)).2.Resolves s.frames.size name := by
  have hf : f < s.frames.size := h.lt_size
  have hparent : (s.newFrame (some f)).2.parent? s.frames.size = some f := by
    rw [parent?_newFrame, if_pos rfl]
  have hchain : (s.newFrame (some f)).2.chain s.frames.size = s.frames.size :: s.chain f := by
    rw [chain, hparent]
    simp only [hf, if_true]
    rw [chain_congr fun g hg ↦ ?_]
    rw [parent?_newFrame, if_neg (Nat.ne_of_lt (Nat.lt_of_le_of_lt hg hf))]
  obtain ⟨g, hg, hbound⟩ := resolves_iff.mp h
  refine resolves_iff.mpr ⟨g, hchain ▸ List.mem_cons_of_mem _ hg, ?_⟩
  rwa [local?_newFrame]

end Store

/-! ## Closed values and stores -/

/-- A closure is closed if its free names are bound on the chain of the frame it captured. -/
def Value.Closed (s : Store) : Value → Prop
  | .closure c => ∀ name ∈ c.lambda.freeNames, s.Resolves c.frame name
  | _ => True

/-- All values in the frames are closed. -/
structure Store.Closed (s : Store) : Prop where
  /-- A bound value is closed. -/
  closed_value : ∀ {f name v}, s.local? f name = some v → v.Closed s

variable {s s' : Store}

theorem Value.closed_of_ne_closure {v : Value} (h : ∀ c, v ≠ .closure c) : v.Closed s := by
  cases v with
  | closure c => exact absurd rfl (h c)
  | _ => trivial

theorem Value.Closed.mono {v : Value} (hv : v.Closed s) {log : List Change}
    (hpath : s.Path log s') : v.Closed s' := by
  cases v with
  | closure c => exact fun name hname ↦ hpath.resolves (hv name hname)
  | _ => trivial

namespace Store

theorem closed_empty : empty.Closed where
  closed_value h := nomatch h

theorem Closed.of_lookup? (hs : s.Closed) {f : FrameId} {name : String} {v : Value}
    (h : s.lookup? f name = some v) : v.Closed s := by
  obtain ⟨g, hg⟩ := exists_local?_of_lookup? h
  exact hs.closed_value hg

theorem Closed.newFrame (hs : s.Closed) (parent : Option FrameId) :
    (s.newFrame parent).2.Closed where
  closed_value h := by
    rw [local?_newFrame] at h
    exact (hs.closed_value h).mono (.newFrame .nil parent)

/-- A value may be bound if it is closed afterwards: a recursive function refers to the very name
that it is bound to. -/
theorem Closed.bind (hs : s.Closed) {f : FrameId} (hf : f < s.frames.size) {name : String}
    {v : Value} (hv : v.Closed (s.bind f name v)) : (s.bind f name v).Closed where
  closed_value h := by
    obtain rfl | h := eq_or_local?_of_bind h
    · exact hv
    · exact (hs.closed_value h).mono (.bind .nil hf name v)

end Store

/-! ## The discipline -/

namespace Store

/-- Some changes lead from the first store to the second. -/
def Becomes (s s' : Store) : Prop := ∃ log, s.Path log s'

theorem Becomes.refl (s : Store) : s.Becomes s := ⟨[], .nil⟩

theorem Becomes.trans {s'' : Store} (h : s.Becomes s') (h' : s'.Becomes s'') : s.Becomes s'' := by
  obtain ⟨log, hpath⟩ := h
  obtain ⟨log', hpath'⟩ := h'
  exact ⟨log ++ log', hpath.append hpath'⟩

theorem becomes_bind {f : FrameId} (hf : f < s.frames.size) (name : String) (v : Value) :
    s.Becomes (s.bind f name v) := ⟨[.bind f name v], .bind .nil hf name v⟩

theorem becomes_bindAll {f : FrameId} (hf : f < s.frames.size) (bs : List (String × Value)) :
    s.Becomes (s.bindAll f bs) :=
  bindAll_induction (.refl s) fun _ ⟨_, hpath⟩ b _ ↦
    ⟨_, hpath.bind (Nat.lt_of_lt_of_le hf hpath.size_le) b.1 b.2⟩

theorem resolves_bindAll {f : FrameId} (hf : f < s.frames.size) {bs : List (String × Value)}
    {b : String × Value} (hb : b ∈ bs) : (s.bindAll f bs).Resolves f b.1 := by
  induction bs generalizing s with
  | nil => cases hb
  | cons a bs ih =>
    have hf' : f < (s.bind f a.1 a.2).frames.size := by simpa using hf
    rcases List.mem_cons.mp hb with rfl | hb
    · obtain ⟨log, hpath⟩ := becomes_bindAll hf' bs
      exact hpath.resolves (resolves_bind_self hf _ _)
    · exact ih hf' hb

theorem Closed.bindAll (hs : s.Closed) {f : FrameId} (hf : f < s.frames.size)
    {bs : List (String × Value)} (hbs : ∀ b ∈ bs, b.2.Closed s) : (s.bindAll f bs).Closed := by
  refine (bindAll_induction (P := fun s' ↦ s.Becomes s' ∧ s'.Closed) ⟨.refl s, hs⟩ ?_).2
  rintro s' ⟨⟨log, hpath⟩, hs'⟩ b hb
  have hf' : f < s'.frames.size := Nat.lt_of_lt_of_le hf hpath.size_le
  have hlater : s.Becomes (s'.bind f b.1 b.2) := ⟨_, hpath.bind hf' b.1 b.2⟩
  exact ⟨hlater, hs'.bind hf' ((hbs b hb).mono (hpath.bind hf' b.1 b.2))⟩

/-- The expression may be evaluated in the frame: its free names resolve there. -/
structure Supports (s : Store) (f : FrameId) (e : Expr) : Prop where
  /-- The frame exists, so that definitions can bind names in it. -/
  lt_size : f < s.frames.size
  /-- The free names resolve. -/
  resolves : ∀ name ∈ e.freeNames, s.Resolves f name

theorem Supports.part {f : FrameId} {e a : Expr} (h : s.Supports f e)
    (hsub : a.freeNames ⊆ e.freeNames) : s.Supports f a where
  lt_size := h.lt_size
  resolves name hname := h.resolves name (hsub hname)

theorem Supports.later {f : FrameId} {e : Expr} (h : s.Supports f e) (hlater : s.Becomes s') :
    s'.Supports f e := by
  obtain ⟨log, hpath⟩ := hlater
  exact ⟨Nat.lt_of_lt_of_le h.lt_size hpath.size_le, fun n hn ↦ hpath.resolves (h.resolves n hn)⟩

/-- The frame of a call supports the body: a free name of the body is a parameter, or it is free in
the lambda. -/
theorem Closed.enter (hs : s.Closed) {c : Closure} {args : List Value}
    (hc : (Value.closure c).Closed s) (hargs : ∀ v ∈ args, v.Closed s)
    (harity : args.length = c.lambda.arity) :
    s.Becomes (s.enter c args) ∧ (s.enter c args).Closed ∧
      (s.enter c args).Supports s.frames.size c.lambda.body := by
  have hnew : s.Path [.newFrame (some c.frame)] (s.newFrame (some c.frame)).2 := .newFrame .nil _
  have hf : s.frames.size < (s.newFrame (some c.frame)).2.frames.size := by simp
  obtain ⟨log, hpath⟩ := becomes_bindAll hf (c.lambda.params.zip args)
  have hclosed : (s.enter c args).Closed := (hs.newFrame _).bindAll hf fun b hb ↦
    (hargs b.2 (List.of_mem_zip hb).2).mono hnew
  refine ⟨⟨_, hnew.append hpath⟩, hclosed, Nat.lt_of_lt_of_le hf hpath.size_le, fun name hname ↦ ?_⟩
  by_cases hparam : name ∈ c.lambda.params
  · have hzip : name ∈ (c.lambda.params.zip args).map Prod.fst := by
      rwa [List.map_fst_zip (Nat.le_of_eq harity.symm)]
    obtain ⟨b, hb, rfl⟩ := List.mem_map.mp hzip
    exact resolves_bindAll hf hb
  · exact hpath.resolves (hc name (Expr.mem_freeNames_lambda.mpr ⟨hname, hparam⟩)).newFrame

end Store

open LexicalLisp.Expr LexicalLisp.Store

/-- Scope safety as a discipline: closed stores and values, expressions with free names that
resolve, and no fault because of an unbound name. -/
def Discipline.scope : Discipline where
  store := Store.Closed
  later := Store.Becomes
  value s v := v.Closed s
  expr := Store.Supports
  cause c := ∀ name, c ≠ .unbound name
  later_refl := .refl
  later_trans := .trans
  value_later := fun ⟨_, hpath⟩ hv ↦ hv.mono hpath
  expr_later hlater he := he.later hlater
  integer _ _ := trivial
  bool _ _ := trivial
  cause_of_dynamic _ h := h
  literal _ := by
    refine ⟨fun v h ↦ Value.closed_of_ne_closure (Value.ne_closure_of_ofLiteral h), fun c h ↦ ?_⟩
    rw [Value.eq_malformed_of_ofLiteral h]
    exact nofun
  symbol := by
    intro s f name hs he
    have hname : s.Resolves f name := he.resolves name (List.mem_singleton_self name)
    refine ⟨fun v hv ↦ hs.of_lookup? hv, fun hnone ↦ ?_⟩
    rw [Resolves, hnone] at hname
    cases hname
  conditional he := ⟨he.part (by simp [freeNames]), he.part (by simp [freeNames]),
    he.part (by simp [freeNames])⟩
  binary he := ⟨he.part (List.subset_append_left _ _), he.part (List.subset_append_right _ _)⟩
  call he := ⟨he.part (List.subset_append_left _ _), fun _ ha ↦
    he.part (List.Subset.trans (freeNames_subset_of_mem ha) (List.subset_append_right _ _))⟩
  lambda _ he := he.resolves
  definition := by
    intro s f name e he hlambda
    exact he.part (by simp [freeNames, hlambda])
  bind := by
    intro s f name e v hs he hv
    obtain ⟨log, hpath⟩ := becomes_bind he.lt_size name v
    exact ⟨⟨log, hpath⟩, hs.bind he.lt_size (hv.mono hpath)⟩
  bind_lambda := by
    intro s f name params body site hs he v
    obtain ⟨log, hpath⟩ := becomes_bind he.lt_size name v
    have hv : v.Closed (s.bind f name v) := by
      intro n hn
      by_cases hself : n = name
      · rw [hself]
        exact resolves_bind_self he.lt_size name v
      · exact hpath.resolves (he.resolves n (List.mem_filter.mpr ⟨hn, decide_eq_true hself⟩))
    exact ⟨⟨log, hpath⟩, hs.bind he.lt_size hv, hv⟩
  enter hs hc hargs harity := hs.enter hc hargs harity

/-! ## Scope safety -/

/-- **Scope safety.** In a closed store, let the free names of an expression resolve in a frame that
exists. Then no evaluation of the expression in the frame fails because of an unbound name, at
whatever depth, and it leaves a closed store and gives a closed value. -/
theorem evaluation_in_scope (depth : Nat) (site : Site) (f : FrameId) (e : Expr) (s : Store)
    (hs : s.Closed) (hf : f < s.frames.size) (he : ∀ name ∈ e.freeNames, s.Resolves f name)
    (r : Run Value) (hr : eval depth site f e s = some r) :
    (∀ fault name, r.result = .error fault → fault.cause ≠ .unbound name) ∧
      r.store.Closed ∧ ∀ v, r.result = .ok v → v.Closed r.store := by
  have houtcome : Discipline.scope.Outcome s Discipline.scope.value r.result r.store :=
    eval_obeys Discipline.scope depth site f e s hs ⟨hf, he⟩ r hr
  exact ⟨fun fault name h ↦ houtcome.cause fault h name, houtcome.store, houtcome.value⟩

/-- The definition of a function that calls itself twice before it ends, and its call: nothing has
to be bound beforehand, and the closure that is left in the root is closed. -/
theorem evaluation_in_scope_recursive_definition :
    let s := (Store.empty.newFrame none).2
    let number (i : Nat) (h : i < 10) : Expr := .literal (.integer { val := i })
    let body : Expr := .conditional (.binary .greater (.symbol "n") (number 0 (by decide)))
      (.call (.symbol "f") [.binary .sub (.symbol "n") (number 1 (by decide))]) (.symbol "n")
    let e : Expr := .call (.definition "f" (.lambda ["n"] body)) [number 2 (by decide)]
    e.freeNames = [] ∧ ∃ r, eval 9 [0] 0 e s = some r ∧
      r.result.toOption = some (.integer .zero) ∧ r.store.Closed ∧
      (r.store.lookup? 0 "f").isSome = true := by
  intro s number body e
  have hfree : e.freeNames = [] := by decide +kernel
  have hs : s.Closed := closed_empty.newFrame none
  have hvalue : (eval 9 [0] 0 e s).bind (·.result.toOption) = some (.integer .zero) := by
    decide +kernel
  have hbound : ((eval 9 [0] 0 e s).bind (·.store.lookup? 0 "f")).isSome = true := by
    decide +kernel
  cases hr : eval 9 [0] 0 e s with
  | none =>
    rw [hr] at hvalue
    cases hvalue
  | some r =>
    obtain ⟨-, hclosed, -⟩ :=
      evaluation_in_scope 9 [0] 0 e s hs (by decide) (by simp [hfree]) r hr
    rw [hr] at hvalue hbound
    exact ⟨hfree, r, rfl, hvalue, hclosed, hbound⟩

end LexicalLisp
