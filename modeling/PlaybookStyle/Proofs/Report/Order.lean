/-
The order of reports is a total preorder.

Findings are ordered by path, line, column and rule (`Diagnostic.compare_eq_lt_iff`).
Two findings are level in that order exactly when path, place and rule agree
(`Diagnostic.compare_eq_eq_iff`), and findings that are the same are level
(`Diagnostic.compare_eq_of_same`). What is level with respect to the order may
still differ in severity, category, message and suggestion.
-/

import PlaybookStyle.Proofs.Path.Sorted
import PlaybookStyle.Report

namespace PlaybookStyle

/-! ### Findings -/

namespace Diagnostic

theorem compare_eq_compareLex :
    Diagnostic.compare =
      compareLex (fun a b => Path.compare a.file b.file) (compareLex (compareOn (·.position.line))
        (compareLex (compareOn (·.position.column)) (compareOn Diagnostic.rule))) := rfl

instance : Std.TransCmp fun a b : Diagnostic => Path.compare a.file b.file where
  eq_swap {a b} := by exact Std.OrientedCmp.eq_swap
  isLE_trans {a b c} hab hbc := by exact Std.TransCmp.isLE_trans hab hbc

instance : Std.TransCmp Diagnostic.compare := by
  rw [compare_eq_compareLex]
  infer_instance

/-- Findings are level exactly when path, line, column and rule agree. -/
theorem compare_eq_eq_iff {a b : Diagnostic} :
    compare a b = .eq ↔
      Path.same a.file b.file = true ∧ a.position = b.position ∧ a.rule = b.rule := by
  simp only [compare, Ordering.then_eq_eq, Path.compare_eq_eq_iff, Std.LawfulEqOrd.compare_eq_iff_eq]
  constructor
  · rintro ⟨file, line, column, rule⟩
    refine ⟨file, ?_, rule⟩
    cases ha : a.position
    cases hb : b.position
    simp_all
  · rintro ⟨file, position, rule⟩
    rw [position, rule]
    exact ⟨file, rfl, rfl, rfl⟩

/-- A finding comes before another by its path; on one path by its line, then by its column
and then by its rule. -/
theorem compare_eq_lt_iff {a b : Diagnostic} :
    compare a b = .lt ↔
      Path.compare a.file b.file = .lt ∨ Path.compare a.file b.file = .eq ∧
        (a.position.line < b.position.line ∨ a.position.line = b.position.line ∧
          (a.position.column < b.position.column ∨ a.position.column = b.position.column ∧
            a.rule < b.rule)) := by
  have hrule : Ord.compare a.rule b.rule = .lt ↔ a.rule < b.rule := compareOfLessAndEq_eq_lt
  simp only [compare, Ordering.then_eq_lt, Nat.compare_eq_lt, Nat.compare_eq_eq, hrule]

theorem notAfter_eq_isLE (a b : Diagnostic) : notAfter a b = (compare a b).isLE := by
  unfold notAfter
  cases compare a b <;> rfl

theorem notAfter_of_lt {a b : Diagnostic} (h : compare a b = .lt) : notAfter a b = true := by
  rw [notAfter, h]
  rfl

theorem notAfter_trans (a b c : Diagnostic) (hab : notAfter a b = true)
    (hbc : notAfter b c = true) : notAfter a c = true := by
  rw [notAfter_eq_isLE] at *
  exact Std.TransCmp.isLE_trans hab hbc

theorem notAfter_total (a b : Diagnostic) : (notAfter a b || notAfter b a) = true := by
  have hswap : compare b a = (compare a b).swap := Std.OrientedCmp.eq_swap
  rw [notAfter_eq_isLE, notAfter_eq_isLE, hswap]
  cases compare a b <;> rfl

/-- What lies between two level findings is level with both. -/
theorem compare_eq_eq_of_between {a b c : Diagnostic} (hab : notAfter a b = true)
    (hbc : notAfter b c = true) (hac : compare a c = .eq) : compare a b = .eq := by
  rw [notAfter_eq_isLE] at hab hbc
  have hca : (compare b a).isLE := by
    rw [← Std.TransCmp.congr_right (Std.OrientedCmp.eq_symm hac)]
    exact hbc
  exact Std.OrientedCmp.isLE_antisymm hab hca

/-! ### Findings that are the same -/

theorem same_iff {a b : Diagnostic} :
    same a b = true ↔ Path.same a.file b.file = true ∧ { a with file := b.file } = b := by
  simp [same]

theorem compare_eq_of_same {a b : Diagnostic} (h : same a b = true) : compare a b = .eq := by
  obtain ⟨file, rest⟩ := same_iff.mp h
  rw [compare_eq_eq_iff]
  rw [← rest] at file ⊢
  exact ⟨file, rfl, rfl⟩

/-- A finding that comes before another differs from it. -/
theorem same_eq_false_of_lt {a b : Diagnostic} (h : compare a b = .lt) : same a b = false := by
  refine Bool.eq_false_iff.mpr fun hsame => ?_
  rw [compare_eq_of_same hsame] at h
  cases h

end Diagnostic

end PlaybookStyle
