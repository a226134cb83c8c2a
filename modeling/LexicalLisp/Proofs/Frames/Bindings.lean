import Mathlib.Data.List.Forall2
import Mathlib.Logic.Equiv.Basic
import LexicalLisp.Store

/-!
# Bindings by their names

Bindings are determined by what they give for each name, since their order is that of the names
(`Bindings.ext_get?`); and if they are related name by name, then they are related one after another
(`Bindings.forall₂_toList`). Hence what is known of the single names of a frame carries over to all
its listings, and to the frame as a whole. A store in turn is determined by the parents and the
bindings of its frames, and the number of forms (`Store.ext_bindings`).
-/

namespace LexicalLisp

namespace Bindings

variable {α β : Type} {P : α → β → Prop}

private theorem lookup_eq_none_of_lt {name : String} {l : List (String × α)}
    (h : ∀ p ∈ l, name < p.1) : l.lookup name = none := by
  rw [List.lookup_eq_none_iff]
  exact fun p hp ↦ bne_iff_ne.mpr (String.ne_of_lt (h p hp))

private theorem not_lt_of_isSome_lookup {name n : String} {a : α} {l : List (String × α)}
    (hl : ((n, a) :: l).Pairwise (·.1 < ·.1)) (h : (((n, a) :: l).lookup name).isSome = true) :
    ¬name < n := by
  intro hlt
  have hnone : ((n, a) :: l).lookup name = none := by
    refine lookup_eq_none_of_lt (List.forall_mem_cons.mpr ⟨hlt, fun p hp ↦ ?_⟩)
    exact String.lt_trans hlt ((List.pairwise_cons.mp hl).1 p hp)
  rw [hnone] at h
  cases h

private theorem isSome_eq_of_rel {x : Option α} {y : Option β} (h : Option.Rel P x y) :
    x.isSome = y.isSome := by
  cases h <;> rfl

/-- Bindings that are related name by name are related in order. -/
theorem forall₂_toList {m : Bindings α} {m' : Bindings β}
    (h : ∀ name, Option.Rel P (m.get? name) (m'.get? name)) :
    List.Forall₂ (fun a b ↦ a.1 = b.1 ∧ P a.2 b.2) m.toList m'.toList := by
  obtain ⟨l, hl⟩ := m
  obtain ⟨l', hl'⟩ := m'
  change ∀ name, Option.Rel P (l.lookup name) (l'.lookup name) at h
  change List.Forall₂ _ l l'
  induction l generalizing l' with
  | nil =>
    cases l' with
    | nil => exact .nil
    | cons b l' =>
      have hb := h b.1
      rw [List.lookup_cons_self] at hb
      cases hb
  | cons a l ih =>
    obtain ⟨n, x⟩ := a
    cases l' with
    | nil =>
      have ha := h n
      rw [List.lookup_cons_self] at ha
      cases ha
    | cons b l' =>
      obtain ⟨n', y⟩ := b
      -- Each of the two first names is bound on the other side, and so it is not the smaller one.
      have hn : n = n' := by
        have hleft := isSome_eq_of_rel (h n)
        have hright := isSome_eq_of_rel (h n')
        rw [List.lookup_cons_self] at hleft hright
        refine String.le_antisymm ?_ ?_
        · exact String.not_lt.mp (not_lt_of_isSome_lookup hl hright)
        · exact String.not_lt.mp (not_lt_of_isSome_lookup hl' hleft.symm)
      subst hn
      have hhead := h n
      rw [List.lookup_cons_self, List.lookup_cons_self] at hhead
      rw [List.pairwise_cons] at hl hl'
      have hxy : P x y := by
        cases hhead with
        | some hxy => exact hxy
      refine .cons ⟨rfl, hxy⟩ (ih hl.2 l' hl'.2 fun name ↦ ?_)
      by_cases hname : name = n
      · rw [hname, lookup_eq_none_of_lt hl.1, lookup_eq_none_of_lt hl'.1]
        exact .none
      · have hrest := h name
        rwa [List.lookup_cons, List.lookup_cons, beq_false_of_ne hname] at hrest

theorem ext_get? {m m' : Bindings α} (h : ∀ name, m.get? name = m'.get? name) : m = m' := by
  have hrel : List.Forall₂ (fun a b ↦ a.1 = b.1 ∧ a.2 = b.2) m.toList m'.toList :=
    forall₂_toList fun name ↦ by
      rw [h name]
      cases m'.get? name <;> constructor
      rfl
  have hlist : m.toList = m'.toList :=
    List.forall₂_eq_eq_eq ▸ hrel.imp fun a b ⟨hname, hvalue⟩ ↦ Prod.ext hname hvalue
  cases m
  cases m'
  cases hlist
  rfl

/-! ## Other names for the same bindings -/

/-- The bindings under other names, with other values. They are put in order again. -/
def transport (rename : Equiv.Perm String) (g : α → β) (m : Bindings α) : Bindings β :=
  m.toList.foldr (fun b m' ↦ m'.insert (rename b.1) (g b.2)) empty

theorem get?_transport (rename : Equiv.Perm String) (g : α → β) (m : Bindings α) (name : String) :
    (m.transport rename g).get? (rename name) = (m.get? name).map g := by
  obtain ⟨l, hl⟩ := m
  change (l.foldr _ empty).get? _ = (l.lookup name).map g
  clear hl
  induction l with
  | nil => rfl
  | cons b l ih =>
    rw [List.foldr_cons, List.lookup_cons]
    by_cases hname : name = b.1
    · subst hname
      rw [get?_insert_self, beq_self_eq_true]
      rfl
    · rw [get?_insert_of_ne _ fun h ↦ hname (rename.injective h), ih, beq_false_of_ne hname]

/-- Bindings that hold the same under other names are those that are put there. -/
theorem eq_transport {rename : Equiv.Perm String} {g : α → β} {m : Bindings α} {m' : Bindings β}
    (h : ∀ name, m'.get? (rename name) = (m.get? name).map g) : m' = m.transport rename g := by
  refine ext_get? fun name ↦ ?_
  -- every name is the other name of some name
  rw [← rename.apply_symm_apply name, h, get?_transport]

end Bindings

/-! ## Stores by their frames -/

theorem Store.ext_bindings {s s' : Store} (hsize : s.frames.size = s'.frames.size)
    (hparent : ∀ f, s.parent? f = s'.parent? f) (hbindings : ∀ f, s.bindings f = s'.bindings f)
    (hforms : s.forms = s'.forms) : s = s' := by
  have hframes : s.frames = s'.frames := by
    refine Array.ext hsize fun f hf hf' ↦ ?_
    have hp := hparent f
    have hb := hbindings f
    rw [parent?, parent?, Array.getElem?_eq_getElem hf, Array.getElem?_eq_getElem hf'] at hp
    rw [bindings, bindings, Array.getElem?_eq_getElem hf, Array.getElem?_eq_getElem hf'] at hb
    change s.frames[f].parent = s'.frames[f].parent at hp
    change s.frames[f].bindings = s'.frames[f].bindings at hb
    calc s.frames[f] = ⟨s.frames[f].parent, s.frames[f].bindings⟩ := rfl
      _ = s'.frames[f] := by rw [hp, hb]
  cases s
  cases s'
  cases hframes
  cases hforms
  rfl

end LexicalLisp
