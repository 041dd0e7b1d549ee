/-
The findings of one rule in a report.

The rules have different names, and sorting keeps every finding about one file. So
with a built-in rule running and its severity reported, the findings under its name
in the report on a content are what the rule says on the walk over the playbook, no
more and no less (`Linter.exists_check`).
-/

import PlaybookStyle.Proofs.Playbook.Accepted
import PlaybookStyle.Proofs.Report.Repeats
import PlaybookStyle.Proofs.Rule.Places
import PlaybookStyle.Proofs.Run

namespace PlaybookStyle

open Playbook

/-- The rule runs, and findings of its severity are reported. -/
structure Settings.Shows (settings : Settings) (rule : Rule) : Prop where
  runs : settings.runs rule.id rule.category = true
  reports : settings.reports (settings.severityOf rule.id rule.severity) = true

/-- A rule is the built-in rule whose name it has. -/
theorem Rule.eq_of_id {rule other : Rule} (hrule : rule ∈ Rule.builtin) (hother : other ∈ Rule.builtin)
    (h : rule.id = other.id) : rule = other :=
  List.inj_on_of_nodup_map Registry.builtin.distinct hrule hother h

/-- A finding under the name of a built-in rule is what that rule says on the walk. -/
theorem Registry.mem_findings_iff {settings : Settings} {playbook : Playbook} {rule : Rule}
    (builtin : rule ∈ Rule.builtin) (shows : settings.Shows rule) (d : Diagnostic) :
    (d ∈ Registry.builtin.findings settings playbook ∧ d.rule = rule.id) ↔
      ∃ visit ∈ playbook.visits, rule.kinds.contains visit.part.kind = true ∧
        ∃ remark ∈ rule.remarks settings.conventions visit,
          d = rule.finding settings playbook.path remark := by
  constructor
  · rintro ⟨hd, hrule⟩
    obtain ⟨visit, hvisit, hd⟩ := List.mem_flatMap.mp hd
    obtain ⟨other, hother, remark, hremark, rfl⟩ := exists_remark_of_mem_findingsAt hd
    obtain ⟨hmem, hkind⟩ := List.mem_filter.mp hother
    obtain rfl : other = rule := Rule.eq_of_id hmem builtin hrule
    exact ⟨visit, hvisit, hkind, remark, hremark, rfl⟩
  · rintro ⟨visit, hvisit, hkind, remark, hremark, rfl⟩
    refine ⟨List.mem_flatMap_of_mem hvisit ?_, rfl⟩
    refine List.mem_flatMap_of_mem (List.mem_filter.mpr ⟨builtin, hkind⟩) ?_
    rw [Rule.findings, if_pos shows.runs]
    exact List.mem_filter.mpr ⟨List.mem_map_of_mem hremark, shows.reports⟩

/-- Every finding about a content that is a playbook, or encrypted, is what a built-in rule says
on the walk. -/
theorem Linter.exists_check_remark {settings : Settings} {linter : Linter} {path content : String}
    {playbook : Playbook} (accepted : ofSettings settings = .ok linter)
    (load : Playbook.load path content = .ok playbook) :
    ∃ report, linter.check path content = .ok report ∧ ∀ d ∈ report.diagnostics,
      ∃ visit ∈ playbook.visits, ∃ rule ∈ Rule.builtin,
        rule.kinds.contains visit.part.kind = true ∧
          ∃ remark ∈ rule.remarks settings.conventions visit,
            d = rule.finding settings path remark := by
  refine ⟨_, check_of_load accepted load, fun d hd => ?_⟩
  obtain ⟨visit, hvisit, hd⟩ := List.mem_flatMap.mp (Report.mem_of_mem_sortedDiagnostics hd)
  rw [path_of_load load] at hd
  obtain ⟨rule, hrule, said⟩ := Registry.exists_remark_of_mem_findingsAt hd
  obtain ⟨hmem, hkind⟩ := List.mem_filter.mp hrule
  exact ⟨visit, hvisit, rule, hmem, hkind, said⟩

/-- Sorting keeps every finding about one file. -/
theorem Report.mem_sortedDiagnostics_iff {ds : List Diagnostic} {path : String}
    (file : ∀ d ∈ ds, d.file = path) {d : Diagnostic} : d ∈ sortedDiagnostics ds ↔ d ∈ ds := by
  refine ⟨mem_of_mem_sortedDiagnostics, fun hd => ?_⟩
  obtain ⟨b, hb, hsame⟩ := exists_same_of_mem Diagnostic.same_equivalence (List.mem_mergeSort.mpr hd)
  have hfile : b.file = d.file := by
    rw [file b (mem_of_mem_sortedDiagnostics hb), file d hd]
  have heq : { d with file := b.file } = b := (Diagnostic.same_iff.mp hsame).2
  rw [hfile] at heq
  have hdb : d = b := heq
  rwa [hdb]

/-- **The report on an accepted content**: under the name of a built-in rule that is
shown stands what the rule says on the walk. -/
theorem Linter.exists_check {settings : Settings} {linter : Linter} {path content : String}
    {playbook : Playbook} (accepted : ofSettings settings = .ok linter)
    (parsed : Playbook.parse path content = .ok playbook) :
    ∃ report, linter.check path content = .ok report ∧
      ∀ rule ∈ Rule.builtin, settings.Shows rule → ∀ d,
        d ∈ report.diagnostics ∧ d.rule = rule.id ↔
          ∃ visit ∈ playbook.visits, rule.kinds.contains visit.part.kind = true ∧
            ∃ remark ∈ rule.remarks settings.conventions visit,
              d = rule.finding settings path remark := by
  obtain ⟨value, read, build⟩ := exists_read_of_parse parsed
  have hpath : playbook.path = path := path_of_build build
  refine ⟨_, check_of_load accepted (load_eq_of_build read build), fun rule hrule shows d => ?_⟩
  have hfindings : d ∈ Registry.builtin.findings settings playbook ∧ d.rule = rule.id ↔ _ :=
    Registry.mem_findings_iff hrule shows d
  rw [hpath] at hfindings
  rw [← hfindings]
  exact and_congr_left' (Report.mem_sortedDiagnostics_iff
    fun d hd => Registry.file_of_mem_findings hd)

end PlaybookStyle
