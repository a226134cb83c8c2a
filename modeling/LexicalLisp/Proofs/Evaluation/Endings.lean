import LexicalLisp.Action

/-!
# How actions end

An action that is put together of others ends as they do. In one direction, the end of the whole
says how the parts have ended (`Action.bind_cases`, `Action.within_cases`). In the other, the ends
of the parts give that of the whole: a sequence stops at the first fault (`Action.bind_of_error`),
or the events of its second part come behind those of the first (`Action.bind_of_ok`).
-/

namespace LexicalLisp.Action

variable {α β : Type} {m : Action α} {k : α → Action β} {s s₁ s₂ : Store} {es es' : List Event}

theorem ofExcept_apply (result : Except Fault α) (s : Store) :
    ofExcept result s = some ⟨result, s, []⟩ := by
  cases result with
  | ok a => rfl
  | error x => rfl

theorem within_apply (form : Expr) (m : Action α) (s : Store) :
    within form m s =
      (m s).map fun r ↦ { r with result := r.result.mapError (·.inside form.render) } := by
  rw [within]
  rcases m s with _ | ⟨_ | _, _, _⟩
  · rfl
  · rfl
  · rfl

/-! ## From the whole to the parts -/

/-- A sequence has failed in its first part, or its second part has gone on from there. -/
theorem bind_cases {r : Run β} (h : (m >>= k) s = some r) :
    (∃ x s₁ es, m s = some ⟨.error x, s₁, es⟩ ∧ r = ⟨.error x, s₁, es⟩) ∨
    ∃ a s₁ es r₁, m s = some ⟨.ok a, s₁, es⟩ ∧ k a s₁ = some r₁ ∧
      r = { r₁ with events := es ++ r₁.events } := by
  obtain ⟨x, hm, hr⟩ | hrest := bind_eq_some_iff.mp h
  · exact .inl ⟨x, r.store, r.events, hm, by rw [← hr]⟩
  · exact .inr hrest

theorem within_cases {form : Expr} {r : Run α} (h : within form m s = some r) :
    ∃ r₁, m s = some r₁ ∧ r = { r₁ with result := r₁.result.mapError (·.inside form.render) } := by
  rw [within_apply, Option.map_eq_some_iff] at h
  obtain ⟨r₁, hm, hr⟩ := h
  exact ⟨r₁, hm, hr.symm⟩

/-! ## From the parts to the whole -/

theorem bind_of_error {x : Fault} (h : m s = some ⟨.error x, s₁, es⟩) :
    (m >>= k) s = some ⟨.error x, s₁, es⟩ := by
  rw [bind_apply, h]

theorem bind_of_ok {a : α} {result : Except Fault β} (h : m s = some ⟨.ok a, s₁, es⟩)
    (hk : k a s₁ = some ⟨result, s₂, es'⟩) : (m >>= k) s = some ⟨result, s₂, es ++ es'⟩ := by
  rw [bind_apply, h]
  simp only [hk, Option.map_some]

theorem within_of {form : Expr} {result : Except Fault α} (h : m s = some ⟨result, s₁, es⟩) :
    within form m s = some ⟨result.mapError (·.inside form.render), s₁, es⟩ := by
  rw [within_apply, h, Option.map_some]

end LexicalLisp.Action
