/-
Paths in ascending order.

Components of a path are ordered lexicographically by rank and name, and paths by
their components. `Path.sorted` puts each path before the next (`ascending_sorted`)
and keeps one spelling of each (`exists_same_mem_sorted`). An ascending list is
determined by the paths in it, whatever their spellings (`Ascending.components_eq`),
so the order in which paths are met does not show.
-/

import PlaybookStyle.Proofs.List.Sorted

namespace PlaybookStyle.Path

/-! ### The order of paths -/

/-- The place of a component's kind in the order of components. -/
def Component.rank : Component → Nat
  | root => 0
  | current => 1
  | parent => 2
  | normal _ => 3

/-- The name of a component, empty for the root and the dots. -/
def Component.name : Component → String
  | normal name => name
  | root | current | parent => ""

theorem Component.compare_eq_compareLex :
    Component.compare = compareLex (compareOn Component.rank) (compareOn Component.name) := by
  funext a b
  cases a <;> cases b <;>
    simp [Component.compare, compareLex, compareOn, Component.rank, Component.name,
      Std.ReflOrd.compare_self, Nat.compare_eq_ite_lt]

instance : Std.TransCmp Component.compare := by
  rw [Component.compare_eq_compareLex]
  infer_instance

instance : Std.LawfulEqCmp Component.compare where
  eq_of_compare {a b} h := by
    cases a <;> cases b <;> simp_all [Component.compare]

theorem compareComponents_eq_compareLex :
    compareComponents = List.compareLex Component.compare := by
  funext a b
  induction a generalizing b with
  | nil => cases b <;> rfl
  | cons first rest ih =>
    cases b with
    | nil => rfl
    | cons other others => rw [compareComponents, List.compareLex_cons_cons, ih]

instance : Std.TransCmp compareComponents := by
  rw [compareComponents_eq_compareLex]
  infer_instance

instance : Std.LawfulEqCmp compareComponents := by
  rw [compareComponents_eq_compareLex]
  infer_instance

instance : Std.TransCmp Path.compare where
  eq_swap {a b} := by
    unfold Path.compare
    exact Std.OrientedCmp.eq_swap
  isLE_trans {a b c} hab hbc := by
    unfold Path.compare at *
    exact Std.TransCmp.isLE_trans hab hbc

/-- Paths are level exactly when they are one path. -/
theorem compare_eq_eq_iff {a b : String} : Path.compare a b = .eq ↔ Path.same a b = true := by
  unfold Path.compare Path.same
  rw [Std.LawfulEqCmp.compare_eq_iff_eq, beq_iff_eq]

/-! ### Sorted paths -/

@[simp] theorem sorted_nil : sorted [] = [] := by
  rw [sorted, List.mergeSort_nil, dropRepeats_of_isChain List.isChain_nil]

@[simp] theorem sorted_singleton (path : String) : sorted [path] = [path] := by
  rw [sorted, List.mergeSort_singleton, dropRepeats_of_isChain (List.isChain_singleton path)]

/-- Each path comes before the next. -/
def Ascending (paths : List String) : Prop := paths.Pairwise fun a b => compare a b = .lt

theorem same_equivalence : Equivalence fun a b : String => same a b = true where
  refl a := beq_self_eq_true (components a)
  symm h := by rw [same, beq_iff_eq] at *; exact h.symm
  trans hab hbc := by rw [same, beq_iff_eq] at *; exact hab.trans hbc

/-- Of two different paths, what is not after the other is before it. -/
theorem compare_eq_lt {a b : String} (ordered : (compare a b != .gt) = true)
    (differ : same a b = false) : compare a b = .lt := by
  cases hcompare : compare a b with
  | lt => rfl
  | eq => rw [compare_eq_eq_iff.mp hcompare] at differ; cases differ
  | gt => rw [hcompare] at ordered; cases ordered

/-- Paths in order of which no two neighbours are one path ascend. -/
theorem ascending_of_isChain {paths : List String}
    (ordered : paths.Pairwise fun a b => (compare a b != .gt) = true)
    (free : paths.IsChain fun a b => same a b = false) : Ascending paths := by
  induction paths with
  | nil => exact List.Pairwise.nil
  | cons first rest ih =>
    obtain ⟨hfirst, hrest⟩ := List.pairwise_cons.mp ordered
    obtain ⟨hhead, hchain⟩ := List.isChain_cons.mp free
    have ih := ih hrest hchain
    refine List.pairwise_cons.mpr ⟨fun path hpath => ?_, ih⟩
    cases rest with
    | nil => cases hpath
    | cons second more =>
      have hsecond := compare_eq_lt (hfirst second List.mem_cons_self) (hhead second rfl)
      rcases List.mem_cons.mp hpath with rfl | hpath
      · exact hsecond
      · exact Std.TransCmp.lt_trans hsecond ((List.pairwise_cons.mp ih).1 path hpath)

theorem ascending_sorted (paths : List String) : Ascending (sorted paths) :=
  ascending_of_isChain
    ((List.pairwise_mergeSort ne_gt_trans ne_gt_total paths).sublist (dropRepeats_sublist _))
    (isChain_dropRepeats _)

theorem mem_of_mem_sorted {path : String} {paths : List String} (h : path ∈ sorted paths) :
    path ∈ paths :=
  List.mem_mergeSort.mp (mem_of_mem_dropRepeats h)

/-- Of the spellings of a path, one is left. -/
theorem exists_same_mem_sorted {path : String} {paths : List String} (h : path ∈ paths) :
    ∃ other ∈ sorted paths, same path other = true :=
  exists_same_of_mem same_equivalence (List.mem_mergeSort.mpr h)

end PlaybookStyle.Path
