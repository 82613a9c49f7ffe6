/-
The orders of paths and of symbols.

Names are compared by code points, components by their sort and then by name,
and paths component by component, so each of them is a linear order in which
only equal components are equal. Symbols are sorted by it: first by file, then by
line, then by name.
-/
import ApiCoverage.Analysis.Basic

namespace ApiCoverage

open Std

/-! ## Texts and components -/

theorem Text.lt_iff (a b : Text) : a < b ↔ ¬ b < a ∧ a ≠ b := by
  constructor
  · rintro hlt
    refine ⟨List.lt_asymm hlt, ?_⟩
    rintro rfl
    exact List.lt_irrefl a hlt
  · rintro ⟨hnot, hne⟩
    refine Decidable.byContradiction fun hlt => hne ?_
    exact List.le_antisymm (List.not_lt.1 hnot) (List.not_lt.1 hlt)

instance Text.transCmp : TransCmp fun a b : Text => compareOfLessAndEq a b :=
  TransOrd.compareOfLessAndEq_of_lt_trans_of_lt_iff List.lt_trans lt_iff

theorem Text.compare_eq_iff {a b : Text} : compareOfLessAndEq a b = .eq ↔ a = b := by
  unfold compareOfLessAndEq
  split
  next hlt => simpa using ((lt_iff a b).1 hlt).2
  · split <;> simp [*]

theorem Text.isLE_compare_iff {a b : Text} : (compareOfLessAndEq a b).isLE = true ↔ a < b ∨ a = b := by
  unfold compareOfLessAndEq
  split
  next hlt => simp [hlt]
  · split <;> simp [*]

namespace Path

instance Component.transCmp : TransCmp Component.compare where
  eq_swap {a b} := by
    cases a <;> cases b <;> first | rfl | exact Text.transCmp.eq_swap
  isLE_trans {a b c} hab hbc := by
    cases a <;> cases b <;> cases c <;>
      first | exact Text.transCmp.isLE_trans hab hbc | rfl | (cases hab; done) | cases hbc

theorem Component.compare_eq_iff {a b : Component} : a.compare b = .eq ↔ a = b := by
  constructor
  · intro h
    cases a <;> cases b <;> first | rfl | cases h | exact congrArg name (Text.compare_eq_iff.1 h)
  · rintro rfl
    cases a <;> first | rfl | exact Text.compare_eq_iff.2 rfl

/-- Paths are compared as lists are. -/
theorem compareComponents_eq (p q : List Component) :
    compareComponents p q = List.compareLex Component.compare p q := by
  fun_induction compareComponents p q with
  | case1 => rfl
  | case2 => rfl
  | case3 => rfl
  | case4 a p b q ih => rw [List.compareLex_cons_cons, ih]

theorem compareComponents_eq_iff {p q : List Component} : compareComponents p q = .eq ↔ p = q := by
  fun_induction compareComponents p q with
  | case1 => simp
  | case2 => simp
  | case3 => simp
  | case4 a p b q ih => simp [Ordering.then_eq_eq, Component.compare_eq_iff, ih]

instance transCmp : TransCmp compare where
  eq_swap {p q} := by
    simp only [compare, compareComponents_eq]
    exact OrientedCmp.eq_swap
  isLE_trans {p q r} := by
    simp only [compare, compareComponents_eq]
    exact TransCmp.isLE_trans

theorem compare_eq_iff {p q : Path} : p.compare q = .eq ↔ p.components = q.components :=
  compareComponents_eq_iff

end Path

/-! ## Symbols -/

namespace Symbol

/-- The first symbol stands before the second, or has the same file, line and
name. -/
def Precedes (a b : Symbol) : Prop :=
  a.file.compare b.file = .lt ∨
    a.file.components = b.file.components ∧ (a.line < b.line ∨ a.line = b.line ∧ (a.name < b.name ∨ a.name = b.name))

theorem le_iff_precedes {a b : Symbol} : a.le b = true ↔ a.Precedes b := by
  rw [le, Precedes, Ordering.isLE_then_iff_or, Path.compare_eq_iff, Ordering.isLE_then_iff_or, Nat.compare_eq_lt,
    Nat.compare_eq_eq, Text.isLE_compare_iff]

/-- The order of symbols as a comparison. -/
def order : Symbol → Symbol → Ordering :=
  compareLex (fun a b => a.file.compare b.file)
    (compareLex (fun a b => compare a.line b.line) fun a b => compareOfLessAndEq a.name b.name)

instance : TransCmp fun a b : Symbol => a.file.compare b.file where
  eq_swap := Path.transCmp.eq_swap
  isLE_trans := Path.transCmp.isLE_trans

instance : TransCmp fun a b : Symbol => compare a.line b.line where
  eq_swap := OrientedCmp.eq_swap
  isLE_trans := TransCmp.isLE_trans

instance : TransCmp fun a b : Symbol => compareOfLessAndEq a.name b.name where
  eq_swap := Text.transCmp.eq_swap
  isLE_trans := Text.transCmp.isLE_trans

instance : TransCmp order := inferInstanceAs (TransCmp (compareLex _ _))

/-- Sorting puts symbols in their order. -/
theorem pairwise_mergeSort (symbols : List Symbol) : (symbols.mergeSort le).Pairwise Precedes := by
  have htrans : ∀ a b c : Symbol, a.le b = true → b.le c = true → a.le c = true :=
    fun a b c => (inferInstance : TransCmp order).isLE_trans
  have htotal : ∀ a b : Symbol, (a.le b || b.le a) = true := by
    intro a b
    have hswap : order a b = (order b a).swap := OrientedCmp.eq_swap
    show ((order a b).isLE || (order b a).isLE) = true
    rw [hswap]
    cases order b a <;> rfl
  exact (List.pairwise_mergeSort htrans htotal symbols).imp le_iff_precedes.1

end Symbol
end ApiCoverage
