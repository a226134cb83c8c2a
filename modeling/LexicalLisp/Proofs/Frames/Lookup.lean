import LexicalLisp.Proofs.Evaluation.History

/-!
# Binding and looking up

A name is looked up by going from frame to parent until a frame binds it. Which frame a lookup would
reach is a relation of its own (`Store.Sees`): one frame sees another for a name if it leads there
and no frame on the way, the first included and the last not, binds the name. In other words, the
other frame is on its chain, and no frame before it on the chain binds the name (`Store.sees_iff`).

A lookup gives the value of the name in the first frame that is seen and binds it
(`Store.lookup?_eq_some_iff`). A binding is seen from some frames and hidden from the others by
bindings of the same name: it determines the lookups of this name from the former, and no other
lookup changes (`lookup_after_bind`).
-/

namespace LexicalLisp

namespace Store

variable {s : Store} {f g p : FrameId} {name : String} {v : Value}

/-- For this name the first frame sees the second one: its links lead there, and no frame before
binds the name. -/
inductive Sees (s : Store) (name : String) : FrameId → FrameId → Prop
  | here (f : FrameId) : Sees s name f f
  | above {g p f : FrameId} (hfree : s.local? g name = none) (hparent : s.parent? g = some p)
    (h : Sees s name p f) : Sees s name g f

theorem exists_chain_eq_cons (s : Store) (f : FrameId) : ∃ rest, s.chain f = f :: rest := by
  rw [chain]
  split
  · exact ⟨[], rfl⟩
  · split
    · exact ⟨_, rfl⟩
    · exact ⟨[], rfl⟩

/-- A frame is seen if it is on the chain and no frame before it on the chain binds the name. -/
theorem sees_iff (hs : s.WellFormed) : s.Sees name g f ↔
    ∃ before rest, s.chain g = before ++ f :: rest ∧ ∀ h ∈ before, s.local? h name = none := by
  constructor
  · intro h
    induction h with
    | here f =>
      obtain ⟨rest, hrest⟩ := s.exists_chain_eq_cons f
      exact ⟨[], rest, hrest, nofun⟩
    | @above g p f hfree hparent _ ih =>
      obtain ⟨before, rest, hchain, hbefore⟩ := ih
      refine ⟨g :: before, rest, ?_, List.forall_mem_cons.mpr ⟨hfree, hbefore⟩⟩
      rw [hs.chain_eq hparent, hchain, List.cons_append]
  · rintro ⟨before, rest, hchain, hbefore⟩
    induction before generalizing g with
    | nil =>
      obtain ⟨rest', hrest⟩ := s.exists_chain_eq_cons g
      rw [(List.cons.inj (hrest.symm.trans hchain)).1]
      exact .here f
    | cons h before ih =>
      obtain ⟨hfree, hrest⟩ := List.forall_mem_cons.mp hbefore
      cases hparent : s.parent? g with
      | none =>
        rw [chain, hparent] at hchain
        cases before <;> cases (List.cons.inj hchain).2
      | some p =>
        rw [hs.chain_eq hparent] at hchain
        obtain ⟨rfl, hp⟩ := List.cons.inj hchain
        exact .above hfree hparent (ih hp hrest)

/-! ## Lookups step by step -/

theorem lookup?_of_local? (h : s.local? g name = some v) : s.lookup? g name = some v := by
  rw [lookup?, chain]
  split
  · rw [List.findSome?_cons, h]
  · split <;> rw [List.findSome?_cons, h]

theorem lookup?_of_free (hfree : s.local? g name = none) (hparent : s.parent? g = some p)
    (hlt : p < g) : s.lookup? g name = s.lookup? p name := by
  rw [lookup?, chain, hparent]
  simp only [hlt, if_true]
  rw [List.findSome?_cons, hfree, lookup?]

theorem lookup?_of_root (hfree : s.local? g name = none) (hparent : s.parent? g = none) :
    s.lookup? g name = none := by
  rw [lookup?, chain, hparent, List.findSome?_cons, hfree, List.findSome?_nil]

theorem Sees.lookup?_eq (h : s.Sees name g f) (hs : s.WellFormed) :
    s.lookup? g name = s.lookup? f name := by
  induction h with
  | here => rfl
  | above hfree hparent _ ih => rw [lookup?_of_free hfree hparent (hs.parent_lt hparent), ih]

/-- A lookup gives the value of the first frame that binds the name. -/
theorem lookup?_eq_some_iff (hs : s.WellFormed) :
    s.lookup? g name = some v ↔ ∃ f, s.Sees name g f ∧ s.local? f name = some v := by
  constructor
  · intro h
    induction g using Nat.strongRecOn with
    | ind g ih =>
      cases hlocal : s.local? g name with
      | some w =>
        rw [lookup?_of_local? hlocal] at h
        exact ⟨g, .here g, hlocal.trans h⟩
      | none =>
        cases hparent : s.parent? g with
        | none =>
          rw [lookup?_of_root hlocal hparent] at h
          cases h
        | some p =>
          rw [lookup?_of_free hlocal hparent (hs.parent_lt hparent)] at h
          obtain ⟨f, hsees, hf⟩ := ih p (hs.parent_lt hparent) h
          exact ⟨f, .above hlocal hparent hsees, hf⟩
  · rintro ⟨f, hsees, hf⟩
    rw [hsees.lookup?_eq hs, lookup?_of_local? hf]

/-! ## Lookups after a binding -/

theorem local?_bind_self (hf : f < s.frames.size) (name : String) (v : Value) :
    (s.bind f name v).local? f name = some v := by
  rw [local?_bind, if_pos ⟨hf, rfl, rfl⟩]

theorem local?_bind_of_ne {other : String} (h : ¬(other = name ∧ g = f)) (v : Value) :
    (s.bind f name v).local? g other = s.local? g other := by
  rw [local?_bind, if_neg fun ⟨_, hg, hother⟩ ↦ h ⟨hother, hg⟩]

theorem Sees.lookup?_bind (h : s.Sees name g f) (hs : s.WellFormed) (hf : f < s.frames.size)
    (v : Value) : (s.bind f name v).lookup? g name = some v := by
  induction h with
  | here f => exact lookup?_of_local? (local?_bind_self hf name v)
  | @above g p f hfree hparent _ ih =>
    by_cases hg : g = f
    · subst hg
      exact lookup?_of_local? (local?_bind_self hf name v)
    · rw [lookup?_of_free ?_ (by rwa [parent?_bind]) (hs.parent_lt hparent)]
      · exact ih hf
      · rwa [local?_bind_of_ne fun h ↦ hg h.2]

/-- From where the frame is not seen, and for other names, nothing has changed. -/
theorem lookup?_bind_of_not_sees {other : String} (hs : s.WellFormed)
    (h : ¬(other = name ∧ s.Sees name g f)) (v : Value) :
    (s.bind f name v).lookup? g other = s.lookup? g other := by
  induction g using Nat.strongRecOn with
  | ind g ih =>
    have hlocal : (s.bind f name v).local? g other = s.local? g other :=
      local?_bind_of_ne (fun ⟨hother, hg⟩ ↦ h ⟨hother, hg ▸ .here g⟩) v
    cases hbound : s.local? g other with
    | some w => rw [lookup?_of_local? hbound, lookup?_of_local? (hlocal.trans hbound)]
    | none =>
      cases hparent : s.parent? g with
      | none =>
        rw [lookup?_of_root hbound hparent,
          lookup?_of_root (hlocal.trans hbound) (by rwa [parent?_bind])]
      | some p =>
        have hlt := hs.parent_lt hparent
        rw [lookup?_of_free hbound hparent hlt,
          lookup?_of_free (hlocal.trans hbound) (by rwa [parent?_bind]) hlt]
        refine ih p hlt fun ⟨hother, hsees⟩ ↦ h ⟨hother, ?_⟩
        exact .above (hother ▸ hbound) hparent hsees

end Store

theorem Action.lookup_apply (f : FrameId) (name : String) (s : Store) :
    lookup f name s =
      some ⟨(s.lookup? f name).elim (.error (.ofCause (.unbound name))) .ok, s, []⟩ := by
  rw [lookup]
  cases s.lookup? f name <;> rfl

theorem Action.lookup_eq_ok_iff {f : FrameId} {name : String} {s : Store} {v : Value} :
    lookup f name s = some ⟨.ok v, s, []⟩ ↔ s.lookup? f name = some v := by
  rw [lookup_apply]
  cases s.lookup? f name <;> simp

/-- **Binding and looking up.** A binding always succeeds. If the frame is seen for the name, a
lookup of this name gives afterwards the value that was bound, and every other lookup ends as it
would have done before. In a single frame, the binding changes the value of this name in this frame
and no other. -/
theorem lookup_after_bind {s : Store} (hs : s.Reachable) {f : FrameId} (hf : f < s.frames.size)
    (g : FrameId) (n m : String) (v : Value) :
    ∃ s' before after, Action.bindName f n v s = some ⟨.ok (), s', [.bind n v]⟩ ∧
      Action.lookup g m s = some ⟨before, s, []⟩ ∧ Action.lookup g m s' = some ⟨after, s', []⟩ ∧
      (m = n ∧ s.Sees n g f → after = .ok v) ∧ (¬(m = n ∧ s.Sees n g f) → after = before) ∧
      (m = n ∧ g = f → s'.local? g m = some v) ∧
      (¬(m = n ∧ g = f) → s'.local? g m = s.local? g m) := by
  have hwf := hs.wellFormed
  refine ⟨s.bind f n v, _, _, rfl, Action.lookup_apply g m s, Action.lookup_apply g m _,
    ?_, ?_, ?_, ?_⟩
  · rintro ⟨rfl, hsees⟩
    rw [hsees.lookup?_bind hwf hf]
    rfl
  · intro h
    rw [Store.lookup?_bind_of_not_sees hwf h]
  · rintro ⟨rfl, rfl⟩
    exact Store.local?_bind_self hf m v
  · intro h
    exact Store.local?_bind_of_ne h v

/-- The root is seen from its child for a name that the child does not bind: a closure over the root
that is bound there is found from the child. The name that the child binds hides the one of the
root. -/
theorem lookup_after_bind_from_child :
    let s := ((Store.empty.newFrame none).2.newFrame (some 0)).2.bind 1 "x" (.bool true)
    let v : Value := .closure ⟨⟨[0], [], .symbol "x"⟩, 0⟩
    (∃ s', Action.bindName 0 "f" v s = some ⟨.ok (), s', [.bind "f" v]⟩ ∧
      Action.lookup 1 "f" s' = some ⟨.ok v, s', []⟩) ∧
    ∃ s', Action.bindName 0 "x" v s = some ⟨.ok (), s', [.bind "x" v]⟩ ∧
      Action.lookup 1 "x" s' = some ⟨.ok (.bool true), s', []⟩ := by
  intro s v
  have hs : s.Reachable :=
    .step (.step (.step .empty .newRoot) (.newChild (by decide))) (.bind (by decide) trivial)
  have hparent : s.parent? 1 = some 0 := by decide
  have hx : s.local? 1 "x" = some (.bool true) := by decide
  constructor
  · obtain ⟨s', -, after, hbind, -, hlookup, hseen, -⟩ :=
      lookup_after_bind hs (f := 0) (by decide) 1 "f" "f" v
    have hsees : s.Sees "f" 1 0 := .above (by decide) hparent (.here 0)
    rw [hseen ⟨rfl, hsees⟩] at hlookup
    exact ⟨s', hbind, hlookup⟩
  · obtain ⟨s', before, after, hbind, hbefore, hlookup, -, hhidden, -⟩ :=
      lookup_after_bind hs (f := 0) (by decide) 1 "x" "x" v
    have hsees : ¬("x" = "x" ∧ s.Sees "x" 1 0) := by
      rintro ⟨-, h⟩
      cases h with
      | above hfree => cases hx.symm.trans hfree
    rw [Action.lookup_apply, Store.lookup?_of_local? hx] at hbefore
    cases hbefore
    rw [hhidden hsees] at hlookup
    exact ⟨s', hbind, hlookup⟩

end LexicalLisp
