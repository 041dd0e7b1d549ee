/-
The report on a conforming playbook.

The findings about the bare values are in the order of the report and all
different, so nothing is moved or dropped (`sortedDiagnostics_of_descending`). The
report has one finding for every bare value and no other: a playbook with all
values in quotes is clean (`lint_text`).
-/

import PlaybookStyle.Proofs.Conforming.Findings
import PlaybookStyle.Proofs.Report.Repeats

namespace PlaybookStyle

/-! ### Findings that need no sorting -/

namespace Diagnostic

/-- The findings are on different lines of one file, one below the other. -/
def Descending (ds : List Diagnostic) : Prop :=
  ds.Pairwise fun a b => a.file = b.file ∧ a.position.line < b.position.line

theorem compare_eq_lt_of_line {a b : Diagnostic} (hfile : a.file = b.file)
    (hline : a.position.line < b.position.line) : compare a b = .lt := by
  refine compare_eq_lt_iff.mpr (.inr ⟨?_, .inl hline⟩)
  rw [hfile]
  exact Std.ReflCmp.compare_self

end Diagnostic

namespace Report

theorem sortedDiagnostics_of_descending {ds : List Diagnostic} (h : Diagnostic.Descending ds) :
    sortedDiagnostics ds = ds := by
  have hbefore : ds.Pairwise fun a b => Diagnostic.compare a b = .lt :=
    h.imp fun hab => Diagnostic.compare_eq_lt_of_line hab.1 hab.2
  exact sortedDiagnostics_eq_self (hbefore.imp Diagnostic.notAfter_of_lt)
    (hbefore.imp Diagnostic.same_eq_false_of_lt).isChain

end Report

/-! ### Conforming playbooks -/

namespace Conforming

open Text Playbook

theorem descending_findingsOf {values : List PlacedValue} (h : Descends values) (path : String) :
    Diagnostic.Descending (findingsOf path values) := by
  rw [Diagnostic.Descending, findingsOf, List.pairwise_map]
  exact (h.sublist List.filter_sublist).imp fun hline => ⟨rfl, hline⟩

/-- **A conforming playbook is clean but for its bare values.** If YAML takes the
text for a play and each bare value for a string, then the report on it, when
nothing is set, has one finding for every bare value, in source order and at the
place of the value, and nothing else; no file fails and the tasks are the steps. -/
theorem lint_text {steps : List Step} (hne : steps ≠ []) (hyaml : ReadsAsPlay (text steps))
    (hstring : ∀ s ∈ steps, ∀ p ∈ s.parameters, p.IsString) (stem : String) :
    ∃ linter, Linter.ofSettings {} = .ok linter ∧
      linter.lint (stem ++ ".yml") (text steps) =
        ⟨((values steps).filter (·.parameter.bare)).map (PlacedValue.finding (stem ++ ".yml")),
          [stem ++ ".yml"], [], 1, steps.length⟩ ∧
      (values steps).map PlacedValue.parameter = steps.flatMap Step.parameters ∧
      Descends (values steps) ∧
      ∀ v ∈ values steps, StandsAt (text steps).toList v.position v.parameter.written.toList := by
  have hdescends : Descends (values steps) := descends_valuesOf 3 steps
  refine ⟨⟨{}, .builtin, by decide⟩, rfl, ?_, map_parameter_valuesOf 3 steps, hdescends,
    fun v hv => standsAt_of_mem_values hv⟩
  have hfindings := findings_playbook hstring stem
  have hplays : (playbook (stem ++ ".yml") steps).playCount = 1 := rfl
  rw [Linter.lint, Linter.check, load_text hne hyaml]
  dsimp only
  rw [hfindings, hplays, taskCount_playbook, Report.sorted, Path.sorted_singleton, Path.sorted_nil,
    Report.sortedDiagnostics_of_descending (descending_findingsOf hdescends _), findingsOf]

/-- Two steps, the first with one value in quotes and one without: the report has
one finding, at the bare value on line five. -/
theorem lint_text_copy :
    let bare : Parameter := ⟨"dest", "v/host.conf", true, by decide, by decide⟩
    let source : Parameter := ⟨"src", "vhost.conf", false, by decide, by decide⟩
    let account : Parameter := ⟨"name", "vera", false, by decide, by decide⟩
    let copy : Step := ⟨"copy the file", .copy, [bare, source], by decide, by simp, by decide⟩
    let user : Step := ⟨"add the user", .user, [account], by decide, by simp, by decide⟩
    ∃ linter, Linter.ofSettings {} = .ok linter ∧ linter.lint "site.yml" (text [copy, user]) =
      ⟨[PlacedValue.finding "site.yml" ⟨⟨5, 15⟩, bare⟩], ["site.yml"], [], 1, 2⟩ := by
  intro bare source account copy user
  have hyaml : ReadsAsPlay (text [copy, user]) := by decide +kernel
  have hkinds : ∀ s ∈ [copy, user], ∀ p ∈ s.parameters, p.bare = true →
      plainKind p.value = .string := by decide +kernel
  have hpath : "site" ++ ".yml" = "site.yml" := by decide
  have hcolumn : byteLength "dest".toList + 11 = 15 := by decide
  have hvalues : (values [copy, user]).filter (·.parameter.bare) = [⟨⟨5, 15⟩, bare⟩] := by
    rw [← hcolumn]
    rfl
  obtain ⟨linter, hlinter, hreport, -⟩ := lint_text (List.cons_ne_nil _ _) hyaml hkinds "site"
  rw [hpath, hvalues] at hreport
  exact ⟨linter, hlinter, hreport⟩

end Conforming

end PlaybookStyle
