import LexicalLisp.Proofs.Frames.Lookup
import LexicalLisp.Proofs.Text.ByteOrder

/-!
# What frames list

A frame lists its entries by their names, and it lists the names that resolve in it. Both listings
are made from the bindings of the frames alone, the first from those of one frame and the second
from those of its chain, and both agree with what lookups find (`listings_agree_with_lookup`): a
name is listed once for every frame of the chain that binds it, hence at least once if and only if
it resolves.

The text of an entry is made from the entry without its frame (`Entry.render`). It is that of the
value that a lookup gives, since a closure shows nothing of the frame that it has captured.
-/

namespace LexicalLisp

open Relation

/-- The text of an entry. -/
def Entry.render : Entry → String
  | value v => v.render
  | own lambda => lambda.render

theorem Entry.render_toValue (f : FrameId) (entry : Entry) :
    (entry.toValue f).render = entry.render := by
  cases entry <;> rfl

namespace Bindings

variable {α : Type} {m : Bindings α} {name : String} {a : α}

theorem mem_toList_iff : (name, a) ∈ m.toList ↔ m.get? name = some a := by
  rw [get?, List.lookup_eq_some_iff]
  constructor
  · intro h
    obtain ⟨before, after, hsplit⟩ := List.append_of_mem h
    refine ⟨before, after, hsplit, fun p hp ↦ bne_iff_ne.mpr ?_⟩
    have hsorted := m.sorted
    rw [hsplit, List.pairwise_append] at hsorted
    exact (String.ne_of_lt (hsorted.2.2 p hp _ List.mem_cons_self)).symm
  · rintro ⟨before, after, hsplit, -⟩
    rw [hsplit]
    exact List.mem_append_right before List.mem_cons_self

theorem nodup_names (m : Bindings α) : m.names.Nodup :=
  List.pairwise_map.mpr (m.sorted.imp String.ne_of_lt)

theorem mem_names_iff : name ∈ m.names ↔ (m.get? name).isSome := by
  rw [names, List.mem_map, Option.isSome_iff_exists]
  constructor
  · rintro ⟨⟨_, a⟩, h, rfl⟩
    exact ⟨a, mem_toList_iff.mp h⟩
  · rintro ⟨a, h⟩
    exact ⟨(name, a), mem_toList_iff.mpr h, rfl⟩

theorem count_names (m : Bindings α) (name : String) :
    m.names.count name = if (m.get? name).isSome then 1 else 0 := by
  rw [m.nodup_names.count]
  simp only [mem_names_iff]

end Bindings

namespace Store

variable {s : Store} {f g : FrameId} {name : String}

theorem isSome_local? (s : Store) (g : FrameId) (name : String) :
    (s.local? g name).isSome = ((s.bindings g).get? name).isSome := Option.isSome_map

/-- The chain of a frame are the frames that its links lead to. -/
theorem mem_chain_iff (hs : s.WellFormed) :
    g ∈ s.chain f ↔ ReflTransGen (fun h p ↦ s.parent? h = some p) f g := by
  constructor
  · intro h
    induction f using Nat.strongRecOn with
    | ind f ih =>
      cases hparent : s.parent? f with
      | none =>
        rw [chain, hparent, List.mem_singleton] at h
        exact h ▸ .refl
      | some p =>
        rw [hs.chain_eq hparent] at h
        rcases List.mem_cons.mp h with rfl | h
        · exact .refl
        · exact .head hparent (ih p (hs.parent_lt hparent) h)
  · intro h
    induction h using ReflTransGen.head_induction_on with
    | refl => exact s.mem_chain_self g
    | head hparent _ ih =>
      rw [hs.chain_eq hparent]
      exact List.mem_cons_of_mem _ ih

theorem nodup_chain (s : Store) (f : FrameId) : (s.chain f).Nodup := by
  fun_induction s.chain f with
  | case1 f hparent => exact List.nodup_singleton f
  | case2 f p hparent hlt ih =>
    refine List.nodup_cons.mpr ⟨fun h ↦ ?_, ih⟩
    exact Nat.not_le.mpr hlt (le_of_mem_chain h)
  | case3 f p hparent hlt => exact List.nodup_singleton f

/-- A name is listed once for every frame of the chain that binds it. -/
theorem count_keys (s : Store) (f : FrameId) (name : String) :
    (s.keys f).count name = (s.chain f).countP fun g ↦ (s.local? g name).isSome := by
  rw [keys, (List.mergeSort_perm _ _).count_eq]
  induction s.chain f with
  | nil => rfl
  | cons g chain ih =>
    rw [List.flatMap_cons, List.count_append, ih, List.countP_cons, Bindings.count_names,
      Nat.add_comm, isSome_local?]

theorem mem_keys_iff : name ∈ s.keys f ↔ (s.lookup? f name).isSome := by
  rw [← List.count_pos_iff, count_keys, List.countP_pos_iff, lookup?, List.findSome?_isSome_iff]

end Store

/-- **Listings and lookups.** The chain of a frame consists of the frames that its links lead to,
each once. A name is listed as often as frames of the chain bind it, and so it is listed if and only
if its lookup succeeds; then the value is that of the first frame that binds it. The entries of a
frame are listed by the bytes of their names, once for every name that the frame binds, with the
text of its value, and there are as many as bindings. -/
theorem listings_agree_with_lookup {s : Store} (hs : s.Reachable) (f : FrameId) :
    ((s.chain f).Nodup ∧
      ∀ g, g ∈ s.chain f ↔ ReflTransGen (fun h p ↦ s.parent? h = some p) f g) ∧
    (∀ name, (s.keys f).count name = (s.chain f).countP fun g ↦ (s.local? g name).isSome) ∧
    (∀ name, name ∈ s.keys f ↔ ∃ v, Action.lookup f name s = some ⟨.ok v, s, []⟩) ∧
    (∀ name v, Action.lookup f name s = some ⟨.ok v, s, []⟩ ↔
      ∃ g, s.Sees name f g ∧ s.local? g name = some v) ∧
    (s.items f).Pairwise (fun a b ↦ Text.bytes a.1 < Text.bytes b.1) ∧
    (∀ name, ((s.items f).map Prod.fst).count name = if (s.local? f name).isSome then 1 else 0) ∧
    (∀ name entry, (name, entry) ∈ s.items f →
      ∃ v, s.local? f name = some v ∧ entry.render = v.render) ∧
    (s.items f).length = (s.bindings f).size := by
  have hwf := hs.wellFormed
  refine ⟨⟨s.nodup_chain f, fun g ↦ Store.mem_chain_iff hwf⟩, s.count_keys f, ?_, ?_, ?_, ?_, ?_,
    rfl⟩
  · intro name
    simp only [Store.mem_keys_iff, Option.isSome_iff_exists, Action.lookup_eq_ok_iff]
  · intro name v
    rw [Action.lookup_eq_ok_iff, Store.lookup?_eq_some_iff hwf]
  · exact (s.bindings f).sorted.imp Text.bytes_lt_bytes_iff.mpr
  · intro name
    rw [s.isSome_local?]
    exact (s.bindings f).count_names name
  · intro name entry h
    refine ⟨entry.toValue f, ?_, (entry.render_toValue f).symm⟩
    exact Store.local?_of_get? (Bindings.mem_toList_iff.mp h)

/-- The root holds a function as a back reference. A child that binds a name of the root lists this
name twice and finds the function, and the root lists it with its text. -/
theorem listings_agree_with_lookup_in_child :
    let c : Closure := ⟨⟨[0], ["y"], .symbol "x"⟩, 0⟩
    let root := ((Store.empty.newFrame none).2.bind 0 "x" (.bool true)).bind 0 "f" (.closure c)
    let s := (root.newFrame (some 0)).2.bind 1 "x" (.bool false)
    (s.keys 1).count "x" = 2 ∧ "f" ∈ s.keys 1 ∧
      Action.lookup 1 "f" s = some ⟨.ok (.closure c), s, []⟩ ∧
      ((s.items 0).map Prod.fst).count "f" = 1 ∧ ("f", Entry.own c.lambda) ∈ s.items 0 ∧
      (Entry.own c.lambda).render = (Value.closure c).render := by
  intro c root s
  have hx : ((Store.empty.newFrame none).2.bind 0 "x" (.bool true)).Reachable :=
    .step (.step .empty .newRoot) (.bind (by decide) trivial)
  have hroot : root.Reachable := hx.step (.bind (by decide) (show 0 < 1 by decide))
  have hs : s.Reachable :=
    .step (hroot.step (.newChild (by decide))) (.bind (by decide) trivial)
  obtain ⟨-, hcount, hkeys, hvalue, -⟩ := listings_agree_with_lookup hs 1
  obtain ⟨-, -, -, -, -, honce, htext, -⟩ := listings_agree_with_lookup hs 0
  have hlocal : s.local? 0 "f" = some (.closure c) := by decide
  have hlookup : Action.lookup 1 "f" s = some ⟨.ok (.closure c), s, []⟩ :=
    (hvalue "f" _).mpr ⟨0, .above (by decide) (by decide) (.here 0), hlocal⟩
  have hentry : ("f", Entry.own c.lambda) ∈ s.items 0 := by decide
  obtain ⟨v, hv, hrender⟩ := htext "f" _ hentry
  obtain rfl : v = .closure c := Option.some.inj (hv.symm.trans hlocal)
  refine ⟨?_, (hkeys "f").mpr ⟨_, hlookup⟩, hlookup, ?_, hentry, hrender⟩
  · rw [hcount]
    decide +kernel
  · rw [honce, hlocal]
    rfl

end LexicalLisp
