/-!
# Bindings

A finite map from names to values, listed in ascending order of names. The order is the one that
listings show, so it is kept at every insertion and carried in the type; strings are compared by
code points, which for UTF-8 is the order of their bytes.

The two laws of the map, `get?_insert_self` and `get?_insert_of_ne`, say what an insertion changes.
-/

namespace LexicalLisp

/-- Values under names, in ascending order of names. -/
structure Bindings (α : Type) where
  /-- The names with their values. -/
  toList : List (String × α)
  /-- Every name is below the names behind it. -/
  sorted : toList.Pairwise (·.1 < ·.1)

namespace Bindings

variable {α : Type}

/-- No bindings. -/
def empty : Bindings α := ⟨[], .nil⟩

instance : Inhabited (Bindings α) := ⟨empty⟩

/-- Puts a value in its place in a sorted list, instead of one of the same name. -/
def place (name : String) (a : α) : List (String × α) → List (String × α)
  | [] => [(name, a)]
  | (n, b) :: rest =>
    if name < n then (name, a) :: (n, b) :: rest
    else if name = n then (name, a) :: rest
    else (n, b) :: place name a rest

theorem mem_place {name : String} {a : α} {p : String × α} :
    ∀ {l : List (String × α)}, p ∈ place name a l → p = (name, a) ∨ p ∈ l
  | [], h => by simpa [place] using h
  | (n, b) :: rest, h => by
    unfold place at h
    split at h
    · simpa using h
    split at h
    · rcases List.mem_cons.1 h with h | h
      · exact .inl h
      · exact .inr (List.mem_cons_of_mem _ h)
    · rcases List.mem_cons.1 h with h | h
      · exact .inr (h ▸ List.mem_cons_self)
      · exact (mem_place h).imp id (List.mem_cons_of_mem _)

private theorem lt_of_not_lt_of_ne {a b : String} (h : ¬a < b) (hne : a ≠ b) : b < a := by
  refine Decidable.byContradiction fun hba ↦ hne (String.le_antisymm ?_ ?_)
  · exact String.not_lt.1 hba
  · exact String.not_lt.1 h

theorem sorted_place {name : String} {a : α} :
    ∀ {l : List (String × α)}, l.Pairwise (·.1 < ·.1) → (place name a l).Pairwise (·.1 < ·.1)
  | [], _ => by simp [place]
  | (n, b) :: rest, h => by
    have hrest := (List.pairwise_cons.1 h).2
    have hn := (List.pairwise_cons.1 h).1
    unfold place
    split
    · rename_i hlt
      refine List.pairwise_cons.2 ⟨fun p hp ↦ ?_, h⟩
      rcases List.mem_cons.1 hp with rfl | hp
      · exact hlt
      · exact String.lt_trans hlt (hn p hp)
    split
    · rename_i _ heq
      subst heq
      exact List.pairwise_cons.2 ⟨hn, hrest⟩
    · rename_i hlt hne
      refine List.pairwise_cons.2 ⟨fun p hp ↦ ?_, sorted_place hrest⟩
      rcases mem_place hp with rfl | hp
      · exact lt_of_not_lt_of_ne hlt hne
      · exact hn p hp

/-- Binds a name, in place of an earlier binding. -/
def insert (m : Bindings α) (name : String) (a : α) : Bindings α :=
  ⟨place name a m.toList, sorted_place m.sorted⟩

/-- The value of a name. -/
def get? (m : Bindings α) (name : String) : Option α := m.toList.lookup name

/-- The bound names, ascending. -/
def names (m : Bindings α) : List String := m.toList.map Prod.fst

/-- The number of bound names. -/
def size (m : Bindings α) : Nat := m.toList.length

@[simp] theorem get?_empty (name : String) : (empty : Bindings α).get? name = none := rfl

private theorem lookup_cons_eq_ite (other n : String) (b : α) (rest : List (String × α)) :
    ((n, b) :: rest).lookup other = if other = n then some b else rest.lookup other := by
  by_cases h : other = n
  · simp [h]
  · simp [h, List.lookup_cons, beq_false_of_ne h]

private theorem lookup_place (name other : String) (a : α) :
    ∀ l : List (String × α), (place name a l).lookup other =
      if other = name then some a else l.lookup other
  | [] => by simp [place, lookup_cons_eq_ite]
  | (n, b) :: rest => by
    have ih := lookup_place name other a rest
    unfold place
    split
    · simp [lookup_cons_eq_ite]
    split
    · rename_i _ heq
      subst heq
      by_cases h : other = name <;> simp [lookup_cons_eq_ite, h]
    · rename_i _ hne
      by_cases h : other = name
      · subst h
        simp [lookup_cons_eq_ite, hne, ih]
      · simp [lookup_cons_eq_ite, ih, h]

@[simp] theorem get?_insert_self (m : Bindings α) (name : String) (a : α) :
    (m.insert name a).get? name = some a := by
  simp [get?, insert, lookup_place]

theorem get?_insert_of_ne (m : Bindings α) {name other : String} (h : other ≠ name) (a : α) :
    (m.insert name a).get? other = m.get? other := by
  simp [get?, insert, lookup_place, h]

end Bindings

end LexicalLisp
