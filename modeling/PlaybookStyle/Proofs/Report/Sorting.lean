/-
Sorting findings commutes with choosing and changing them.

A choice may bring together two findings that are the same, so that one of them
is dropped as a repeat; it does not as long as it treats level findings alike,
because a sorted list has only level findings between them. So
`sortedDiagnostics_filter` holds of a choice that goes by the rule, and
`sortedDiagnostics_map` of a change that keeps order and sameness.
-/

import PlaybookStyle.Proofs.Report.Order

namespace PlaybookStyle

namespace Report

theorem mem_of_mem_sortedDiagnostics {d : Diagnostic} {ds : List Diagnostic}
    (h : d ∈ sortedDiagnostics ds) : d ∈ ds :=
  List.mem_mergeSort.mp (mem_of_mem_dropRepeats h)

/-- A choice of findings that treats level ones alike may be made before or after
sorting. -/
theorem sortedDiagnostics_filter_of_level {p : Diagnostic → Bool} {ds : List Diagnostic}
    (level : ∀ a ∈ ds, ∀ b ∈ ds, Diagnostic.compare a b = .eq → p a = p b) :
    sortedDiagnostics (ds.filter p) = (sortedDiagnostics ds).filter p := by
  have hsorted := List.pairwise_mergeSort Diagnostic.notAfter_trans Diagnostic.notAfter_total ds
  have hmem : ∀ {a}, a ∈ ds.mergeSort Diagnostic.notAfter → a ∈ ds := List.mem_mergeSort.mp
  unfold sortedDiagnostics
  rw [← filter_mergeSort Diagnostic.notAfter_trans Diagnostic.notAfter_total]
  refine (filter_dropRepeats ?_ ?_).symm
  · refine List.Pairwise.imp_of_mem (fun ha hc _ hsame => ?_) hsorted
    exact level _ (hmem ha) _ (hmem hc) (Diagnostic.compare_eq_of_same hsame)
  · intro a b c hsub hsame
    have horder := hsorted.sublist hsub
    simp only [List.pairwise_cons, List.mem_cons, List.not_mem_nil, or_false,
      forall_eq_or_imp, forall_eq] at horder
    refine level a (hmem (hsub.subset (by simp))) b (hmem (hsub.subset (by simp))) ?_
    exact Diagnostic.compare_eq_eq_of_between horder.1.1 horder.2.1
      (Diagnostic.compare_eq_of_same hsame)

/-- A choice of findings that treats those of one rule alike may be made before
or after sorting. -/
theorem sortedDiagnostics_filter {p : Diagnostic → Bool} {ds : List Diagnostic}
    (alike : ∀ a ∈ ds, ∀ b ∈ ds, a.rule = b.rule → p a = p b) :
    sortedDiagnostics (ds.filter p) = (sortedDiagnostics ds).filter p :=
  sortedDiagnostics_filter_of_level fun a ha b hb h =>
    alike a ha b hb (Diagnostic.compare_eq_eq_iff.mp h).2.2

/-- A change of findings that keeps their order and their sameness may be made
before or after sorting. -/
theorem sortedDiagnostics_map {f : Diagnostic → Diagnostic} {ds : List Diagnostic}
    (order : ∀ a ∈ ds, ∀ b ∈ ds, Diagnostic.compare (f a) (f b) = Diagnostic.compare a b)
    (same : ∀ a ∈ ds, ∀ b ∈ ds, Diagnostic.same (f a) (f b) = Diagnostic.same a b) :
    sortedDiagnostics (ds.map f) = (sortedDiagnostics ds).map f := by
  unfold sortedDiagnostics
  have hsort : (ds.mergeSort Diagnostic.notAfter).map f =
      (ds.map f).mergeSort Diagnostic.notAfter :=
    List.map_mergeSort fun a ha b hb => by simp only [Diagnostic.notAfter, order a ha b hb]
  rw [← hsort]
  exact (map_dropRepeats fun a ha b hb =>
    same a (List.mem_mergeSort.mp ha) b (List.mem_mergeSort.mp hb)).symm

/-- Findings of which some come before all others are sorted in two parts. -/
theorem sortedDiagnostics_split {p : Diagnostic → Bool} {ds : List Diagnostic}
    (before : ∀ a ∈ ds, ∀ b ∈ ds, p a = true → p b = false → Diagnostic.compare a b = .lt) :
    sortedDiagnostics ds =
      sortedDiagnostics (ds.filter p) ++ sortedDiagnostics (ds.filter (!p ·)) := by
  have hlevel : ∀ a ∈ ds, ∀ b ∈ ds, Diagnostic.compare a b = .eq → p a = p b := by
    intro a ha b hb hcompare
    cases hpa : p a <;> cases hpb : p b
    · rfl
    · have hlt := before b hb a ha hpb hpa
      rw [Std.OrientedCmp.eq_symm hcompare] at hlt
      cases hlt
    · have hlt := before a ha b hb hpa hpb
      rw [hcompare] at hlt
      cases hlt
    · rfl
  have hsorted : (sortedDiagnostics ds).Pairwise fun a b => p b = true → p a = true := by
    have hpairs : (sortedDiagnostics ds).Pairwise fun a b => a.notAfter b = true :=
      (List.pairwise_mergeSort Diagnostic.notAfter_trans Diagnostic.notAfter_total ds).sublist
        (dropRepeats_sublist _)
    refine List.Pairwise.imp_of_mem (fun {a b} ha hb hnotAfter hpb => ?_) hpairs
    cases hpa : p a with
    | true => rfl
    | false =>
      have hlt := before b (mem_of_mem_sortedDiagnostics hb) a (mem_of_mem_sortedDiagnostics ha)
        hpb hpa
      rw [Diagnostic.notAfter_eq_isLE, Std.OrientedCmp.gt_of_lt hlt] at hnotAfter
      cases hnotAfter
  rw [sortedDiagnostics_filter_of_level hlevel,
    sortedDiagnostics_filter_of_level fun a ha b hb h => by rw [hlevel a ha b hb h]]
  exact eq_filter_append_filter hsorted

end Report

end PlaybookStyle
