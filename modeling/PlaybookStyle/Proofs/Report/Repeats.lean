/-
Which repeats a sorted report is rid of.

Only a finding that is the same as the one before it is dropped. So no two
neighbours of a sorted report are the same, but of two findings that are the
same both stay if a third one, level with them in the order of reports, was
reported between them. `Report.Together` says that this does not happen, and a
sorted report is free of repeats exactly then
(`Report.pairwise_sortedDiagnostics_iff`). Of three expressions in one text, the
first and the last may be alike; then the report on the playbook is not.
-/

import PlaybookStyle.Linter
import PlaybookStyle.Proofs.Report.Sorting

namespace PlaybookStyle

/-- Findings in order, without repeats among neighbours, stay as they are. -/
theorem Report.sortedDiagnostics_eq_self {ds : List Diagnostic}
    (sorted : ds.Pairwise fun a b => Diagnostic.notAfter a b = true)
    (free : ds.IsChain fun a b => Diagnostic.same a b = false) : sortedDiagnostics ds = ds := by
  rw [sortedDiagnostics, List.mergeSort_of_pairwise sorted, dropRepeats_of_isChain free]

/-! ### Findings that are the same -/

namespace Diagnostic

/-- Findings are the same exactly if their paths have the same components and all
else is equal. -/
theorem same_iff_components {a b : Diagnostic} :
    same a b = true ↔ Path.components a.file = Path.components b.file ∧
      { a with file := "" } = { b with file := "" } := by
  rw [same_iff, Path.same, beq_iff_eq]
  refine and_congr_right fun _ => ?_
  cases a
  cases b
  simp

/-- Being the same is an equality of findings. -/
theorem same_equivalence : Equivalence fun a b : Diagnostic => same a b = true where
  refl a := same_iff_components.mpr ⟨rfl, rfl⟩
  symm h := same_iff_components.mpr ((same_iff_components.mp h).imp Eq.symm Eq.symm)
  trans hab hbc := by
    rw [same_iff_components] at *
    exact ⟨hab.1.trans hbc.1, hab.2.trans hbc.2⟩

end Diagnostic

namespace Report

/-- Between findings that are the same, no other is reported that is level with
them. -/
def Together (ds : List Diagnostic) : Prop :=
  ∀ a b c, List.Sublist [a, b, c] ds → Diagnostic.compare a b = .eq →
    Diagnostic.same a c = true → Diagnostic.same a b = true

/-- Findings stand together in a report exactly if they do so when it is sorted. -/
theorem grouped_mergeSort_iff (ds : List Diagnostic) :
    Grouped Diagnostic.same (ds.mergeSort Diagnostic.notAfter) ↔ Together ds := by
  -- Three findings that are level with one another stand in one list as in the other.
  have hlevel : ∀ {a b c} {l m : List Diagnostic},
      l.filter (Diagnostic.compare a · == .eq) = m.filter (Diagnostic.compare a · == .eq) →
      Diagnostic.compare a b = .eq → Diagnostic.same a c = true → List.Sublist [a, b, c] l →
      List.Sublist [a, b, c] m := by
    intro a b c l m hfilter hab hac hsub
    have hself : Diagnostic.compare a a = .eq := Std.ReflCmp.compare_self
    have hthree := hsub.filter (Diagnostic.compare a · == .eq)
    rw [hfilter] at hthree
    simp only [List.filter_cons, hself, hab, Diagnostic.compare_eq_of_same hac, beq_self_eq_true,
      if_true, List.filter_nil] at hthree
    exact hthree.trans List.filter_sublist
  constructor
  · intro h a b c hsub hab hac
    exact h a b c (hlevel (filter_level_mergeSort a ds).symm hab hac hsub) hac
  · intro h a b c hsub hac
    have hsorted := (List.pairwise_mergeSort Diagnostic.notAfter_trans Diagnostic.notAfter_total
      ds).sublist hsub
    simp only [List.pairwise_cons, List.mem_cons, List.not_mem_nil, or_false, forall_eq_or_imp,
      forall_eq] at hsorted
    have hab := Diagnostic.compare_eq_eq_of_between hsorted.1.1 hsorted.2.1
      (Diagnostic.compare_eq_of_same hac)
    exact h a b c (hlevel (filter_level_mergeSort a ds) hab hac hsub) hab hac

/-- Sorted findings are free of repeats exactly if those that are the same were
reported together. -/
theorem pairwise_sortedDiagnostics_iff (ds : List Diagnostic) :
    (sortedDiagnostics ds).Pairwise (fun a b => Diagnostic.same a b = false) ↔ Together ds := by
  rw [sortedDiagnostics, pairwise_dropRepeats_iff Diagnostic.same_equivalence,
    grouped_mergeSort_iff]

end Report

/-! ### Reports -/

namespace Linter

/-- **Repeats go where they stand together.** Whatever findings were put into a
report, no two neighbours are the same once it is sorted; no two findings at all
are the same exactly if those that are the same were reported together. In a report
on the content of a file, that is how the rules report on the walk. -/
theorem free_of_repeats_iff (report : Report) :
    report.sorted.diagnostics.IsChain (fun a b => Diagnostic.same a b = false) ∧
      (report.sorted.diagnostics.Pairwise (fun a b => Diagnostic.same a b = false) ↔
        Report.Together report.diagnostics) ∧
      ∀ (linter : Linter) (path content : String), linter.check path content = .ok report →
        ∃ playbook, Playbook.load path content = .ok playbook ∧
          (report.diagnostics.Pairwise (fun a b => Diagnostic.same a b = false) ↔
            Report.Together (linter.registry.findings linter.settings playbook)) := by
  refine ⟨isChain_dropRepeats _, Report.pairwise_sortedDiagnostics_iff report.diagnostics, ?_⟩
  intro linter path content h
  unfold check at h
  cases hload : Playbook.load path content with
  | error failure => simp [hload] at h
  | ok playbook =>
    simp only [hload, Except.ok.injEq] at h
    subst h
    exact ⟨playbook, rfl, Report.pairwise_sortedDiagnostics_iff _⟩

/-- Three expressions without blanks in one text, the first and the last alike:
the finding on the first is reported twice. -/
theorem free_of_repeats_iff_expressions :
    let content := "- hosts: all\n  tasks:\n    - debug:\n        msg: \"\x7b\x7ba\x7d\x7d " ++
      "\x7b\x7bb\x7d\x7d \x7b\x7ba\x7d\x7d\"\n"
    ∃ linter report, ofSettings {} = .ok linter ∧ linter.check "site.yml" content = .ok report ∧
      ¬report.diagnostics.Pairwise fun a b => Diagnostic.same a b = false := by
  intro content
  let linter : Linter := ⟨{}, .builtin, by decide⟩
  let finding (inner : List Char) : Diagnostic :=
    Rule.jinjaSpacing.finding {} "site.yml" (Rule.expressionRemark ⟨4, 14⟩ inner)
  have hcheck : (linter.check "site.yml" content).toOption.isSome = true := by decide +kernel
  have hfindings : (Playbook.load "site.yml" content).toOption.map
      (linter.registry.findings linter.settings) = some [finding ['a'], finding ['b'], finding ['a']] := by
    decide +kernel
  have hdiffer : Diagnostic.compare (finding ['a']) (finding ['b']) = .eq ∧
      Diagnostic.same (finding ['a']) (finding ['b']) = false := by decide +kernel
  cases hreport : linter.check "site.yml" content with
  | error failure =>
    rw [hreport] at hcheck
    cases hcheck
  | ok report =>
    refine ⟨linter, report, rfl, hreport, ?_⟩
    obtain ⟨-, -, hchecked⟩ := free_of_repeats_iff report
    obtain ⟨playbook, hload, hiff⟩ := hchecked linter "site.yml" content hreport
    rw [hload] at hfindings
    rw [hiff, Option.some.inj hfindings]
    intro h
    have hsame := h _ _ _ (List.Sublist.refl _) hdiffer.1 (Diagnostic.same_equivalence.refl _)
    rw [hdiffer.2] at hsame
    cases hsame

end Linter

end PlaybookStyle
