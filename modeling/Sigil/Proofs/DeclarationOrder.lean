import Mathlib.Data.List.Perm.Basic
import Sigil.Proofs.Renumbering
import Sigil.Proofs.Spellings

namespace Sigil

theorem perm_flatMap_filter {α : Type} (kind : α → Nat) (n : Nat) (xs : List α) :
    ((List.range n).flatMap fun k => xs.filter (kind · = k)).Perm (xs.filter (kind · < n)) := by
  induction n with
  | zero => simp
  | succ n ih =>
    rw [List.range_succ, List.flatMap_append, List.flatMap_singleton]
    have hsplit := List.filter_append_perm (kind · < n) (xs.filter (kind · < n + 1))
    rw [List.filter_filter, List.filter_filter] at hsplit
    have hbelow : (fun x => decide (kind x < n) && decide (kind x < n + 1)) =
        fun x => decide (kind x < n) := by
      funext x
      grind
    have hlast : (fun x => !decide (kind x < n) && decide (kind x < n + 1)) =
        fun x => decide (kind x = n) := by
      funext x
      grind
    rw [hbelow, hlast] at hsplit
    exact (ih.append_right _).trans hsplit

namespace Declaration

/-- Which of the kinds of declarations it is. -/
def kind (d : Declaration) : Nat := d.ctorIdx

theorem kind_renumber (f : Nat → Nat) (d : Declaration) : (d.renumber f).kind = d.kind := by
  cases d <;> rfl

end Declaration

namespace Component

theorem map_filterMap_eq_filter {α : Type} {p : Declaration → Option α} {g : α → Declaration}
    {k : Nat} (h : ∀ d, (p d).map g = if d.kind = k then some d else none)
    (ds : List Declaration) : (ds.filterMap p).map g = ds.filter (·.kind = k) := by
  rw [List.map_filterMap, ← List.filterMap_eq_filter]
  congr 1
  funext d
  rw [h, Option.guard]
  simp only [decide_eq_true_eq]

/-- A component has the declarations that it is made from, sorted by their kinds. -/
theorem declarations_ofDeclarations (name : String) (ds : List Declaration) (m : Markup) :
    (ofDeclarations name ds m).declarations =
      (List.range 17).flatMap fun k => ds.filter (·.kind = k) := by
  have hkind {α : Type} {p : Declaration → Option α} {g : α → Declaration} (k : Nat)
      (h : ∀ d, (p d).map g = if d.kind = k then some d else none) := map_filterMap_eq_filter h ds
  have hrange : List.range 17 = [0, 1, 2, 3, 4, 5, 6, 7, 8, 9, 10, 11, 12, 13, 14, 15, 16] := rfl
  delta declarations ofDeclarations
  dsimp only
  rw [hkind 0, hkind 1, hkind 2, hkind 3, hkind 4, hkind 5, hkind 6, hkind 7, hkind 8, hkind 9,
    hkind 10, hkind 11, hkind 12, hkind 13, hkind 14, hkind 15, hkind 16]
  · simp only [hrange, List.flatMap_cons, List.flatMap_nil, List.append_nil, List.append_assoc]
  all_goals
    intro d
    cases d <;> rfl

theorem declarations_perm (name : String) (ds : List Declaration) (m : Markup) :
    (ofDeclarations name ds m).declarations.Perm ds := by
  have hkinds := perm_flatMap_filter Declaration.kind 17 ds
  have hall : ds.filter (·.kind < 17) = ds :=
    List.filter_eq_self.mpr fun d _ => by cases d <;> rfl
  rwa [hall, ← declarations_ofDeclarations name ds m] at hkinds

theorem filterMap_eq_of_kind {α : Type} {p : Declaration → Option α} {k : Nat}
    (hp : ∀ d, d.kind ≠ k → p d = none) {ds ds' : List Declaration}
    (h : ds.filter (·.kind = k) = ds'.filter (·.kind = k)) : ds.filterMap p = ds'.filterMap p := by
  have hfilter (ds : List Declaration) : ds.filterMap p = (ds.filter (·.kind = k)).filterMap p := by
    rw [List.filterMap_filter]
    congr 1
    funext d
    split
    next => rfl
    next hk => exact hp d (by simpa using hk)
  rw [hfilter ds, hfilter ds', h]

/-- Declarations of different kinds may change places. -/
theorem ofDeclarations_eq_of_kinds (name : String) (m : Markup) {ds ds' : List Declaration}
    (h : ∀ k, ds.filter (·.kind = k) = ds'.filter (·.kind = k)) :
    ofDeclarations name ds m = ofDeclarations name ds' m := by
  have hkind {α : Type} {p : Declaration → Option α} (k : Nat)
      (hp : ∀ d, d.kind ≠ k → p d = none) := filterMap_eq_of_kind hp (h k)
  simp only [ofDeclarations, mk.injEq, true_and, and_true]
  refine ⟨hkind 0 ?_, hkind 1 ?_, hkind 2 ?_, hkind 3 ?_, hkind 4 ?_, hkind 5 ?_, hkind 6 ?_,
    hkind 7 ?_, hkind 8 ?_, hkind 9 ?_, hkind 10 ?_, hkind 11 ?_, hkind 12 ?_, hkind 13 ?_,
    hkind 14 ?_, hkind 15 ?_, hkind 16 ?_⟩
  all_goals
    intro d hk
    cases d <;> simp [Declaration.kind, Declaration.ctorIdx] at hk ⊢

end Component

end Sigil
