import LexicalLisp.Proofs.Evaluation.Equivariance

/-!
# Quoted data is opaque

What a quote holds is carried along and never looked at. To say so, all quotes are blanked: they are
given one and the same datum to hold. Programs and stores differ in nothing but quoted data if they
are the same once their quotes are blanked, and then so are the runs of the programs
(`eval_blank_eq`).

This holds because blanking is a translation. The blanked run can be told from the blanked program
and the blanked store alone, where nothing is left of the data.
-/

namespace LexicalLisp

namespace Datum

mutual

/-- The datum with an empty list in every quote. -/
def blank : Datum → Datum
  | .list items => .list (blankAll items)
  | .symbol name => .symbol name
  | .integer value => .integer value
  | .bool value => .bool value
  | .quote _ => .quote (.list [])

/-- The data of a list with an empty list in every quote. -/
def blankAll : List Datum → List Datum
  | [] => []
  | d :: rest => blank d :: blankAll rest

end

end Datum

/-- An empty list is put in every quote, and names stay as they are. -/
def Translation.blank : Translation where
  name := Equiv.refl String
  quoted _ := .list []
  items := Datum.blankAll

/-- The expression with blanked quotes. -/
def Expr.blank (e : Expr) : Expr := e.translate .blank

/-- The store with blanked quotes, those in the bodies of its closures included. -/
def Store.blank (s : Store) : Store := s.translate .blank

/-- A run with blanked quotes: the value or, of a fault, its kind and the length of its trail, the
store at the end, and the events. -/
def Run.blank (r : Run Value) : Except (Cause.Kind × Nat) Value × Store × List Event :=
  ((r.result.map (Value.translate .blank)).mapError fun x ↦ (x.cause.kind, x.trail.length),
    r.store.blank, r.events.map (Event.translate .blank))

/-- What a run shows if the texts in a fault are left out. -/
private def Run.outline (r : Run Value) : Except (Cause.Kind × Nat) Value × Store × List Event :=
  (r.result.mapError fun x ↦ (x.cause.kind, x.trail.length), r.store, r.events)

/-- The run of a blanked program shows what the run of the program shows if it is blanked. -/
private theorem map_outline_eval_blank (depth : Nat) (site : Site) (f : FrameId) (e : Expr)
    (s : Store) :
    (eval depth site f e.blank s.blank).map Run.outline =
      (eval depth site f e s).map Run.blank := by
  rw [Expr.blank, Store.blank]
  cases h : eval depth site f e s with
  | none =>
    rw [(eval_translate_eq_none_iff .blank depth site f e s).mpr h]
    rfl
  | some r =>
    obtain ⟨fault | v, s', es⟩ := r
    · obtain ⟨x, -, rfl, cause', hkind, hblank⟩ := eval_translate_of_error (t := .blank) h
      rw [hblank]
      simp only [Option.map_some, Run.outline, Run.blank, Except.map, Except.mapError, hkind,
        Failure.toFault, Failure.trail, List.length_append, List.length_map, Store.blank]
    · rw [eval_translate_of_ok h]
      rfl

/-- **Quoted data is opaque.** If two expressions differ in quoted data only, and so do the stores
in which they are evaluated, then either both evaluations end or neither does, and what they end
with differs in quoted data only: the values, the stores and the events are the same with blanked
quotes, and faults are of the same kind, with trails of the same length. -/
theorem eval_blank_eq {e e' : Expr} (he : e.blank = e'.blank) {s s' : Store}
    (hs : s.blank = s'.blank) (depth : Nat) (site : Site) (f : FrameId) :
    (eval depth site f e s).map Run.blank = (eval depth site f e' s').map Run.blank := by
  rw [← map_outline_eval_blank, ← map_outline_eval_blank, he, hs]

/-- A quoted datum is passed and tested, and another one is called, which ends in a fault. It makes
no difference that the other program has other data in these places. -/
theorem eval_blank_eq_tested_and_called :
    let quote (d : Datum) := Expr.literal (.quote d)
    let program (d : Datum) := Expr.call (.lambda ["x"] (.conditional (.symbol "x")
      (.call (.symbol "q") [.definition "r" (quote d)]) (quote d))) [quote d]
    let store (d : Datum) := (Store.empty.newFrame none).2.bind 0 "q" (.quoted d)
    ∃ r r', eval 5 [0] 0 (program (.symbol "a")) (store (.bool false)) = some r ∧
      eval 5 [0] 0 (program (.list [])) (store (.symbol "b")) = some r' ∧ r.blank = r'.blank := by
  intro quote program store
  have hstore : (store (.bool false)).blank = (store (.symbol "b")).blank := by
    rw [Store.blank, Store.blank, Store.translate_bind, Store.translate_bind]
    rfl
  have hprogram : (program (.symbol "a")).blank = (program (.list [])).blank := rfl
  have h := eval_blank_eq hprogram hstore 5 [0] 0
  obtain ⟨r, hr⟩ := Option.isSome_iff_exists.mp
    (show (eval 5 [0] 0 (program (.symbol "a")) (store (.bool false))).isSome = true by
      decide +kernel)
  rw [hr] at h
  obtain ⟨r', hr', hblank⟩ := Option.map_eq_some_iff.mp h.symm
  exact ⟨r, r', hr, hr', hblank.symm⟩

end LexicalLisp
