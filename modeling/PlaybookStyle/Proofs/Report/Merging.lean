/-
Sorting reports loses nothing and may be repeated.

A sorted report lists the findings in order, those that are level as they were
reported, and each path once (`Report.Sorts`). It ends a run as the report that
was sorted does, and it is its own sorted report. Repeats are looked for among
neighbours only, but the first of a run of repeats stays, so dropping them in two
lists and again where the lists meet is dropping them once
(`dropRepeats_append_dropRepeats`). What is level in two reports therefore comes
out of their merge alike, whether or not each was sorted before
(`sorted_merge_sorted`).
-/

import PlaybookStyle.Proofs.Report.Repeats

namespace PlaybookStyle

/-- A list has every path of another once, in ascending order. -/
structure Path.Sorts (paths listed : List String) : Prop where
  ascending : Path.Ascending listed
  drawn : ∀ path ∈ listed, path ∈ paths
  kept : ∀ path ∈ paths, ∃ other ∈ listed, Path.same path other = true

theorem Path.sorts_sorted (paths : List String) : Path.Sorts paths (Path.sorted paths) where
  ascending := Path.ascending_sorted paths
  drawn _ := Path.mem_of_mem_sorted
  kept _ := Path.exists_same_mem_sorted

namespace Report

/-- A report has the findings and files of another, in order. Findings that are
level stand as they stood there, and the run that is reported ends alike. -/
structure Sorts (report listed : Report) : Prop where
  ordered : listed.diagnostics.Pairwise fun a b => Diagnostic.notAfter a b = true
  drawn : ∀ d ∈ listed.diagnostics, d ∈ report.diagnostics
  kept : ∀ d ∈ report.diagnostics, ∃ e ∈ listed.diagnostics, Diagnostic.same d e = true
  stable : ∀ d, (listed.diagnostics.filter (Diagnostic.compare d · == .eq)).Sublist
    (report.diagnostics.filter (Diagnostic.compare d · == .eq))
  files : Path.Sorts report.files listed.files
  failed : Path.Sorts report.failed listed.failed
  plays : listed.plays = report.plays
  tasks : listed.tasks = report.tasks
  hasErrors : listed.hasErrors = report.hasErrors
  exitCode : ∀ failOn, listed.exitCode failOn = report.exitCode failOn

theorem diagnostics_sorted (r : Report) :
    r.sorted.diagnostics = sortedBy Diagnostic.compare Diagnostic.same r.diagnostics := rfl

/-- Findings that are the same have one severity. -/
theorem severity_eq_of_same {a b : Diagnostic} (h : Diagnostic.same a b = true) :
    a.severity = b.severity := by
  obtain ⟨-, hrest⟩ := Diagnostic.same_iff.mp h
  rw [← hrest]

theorem hasErrors_sorted (r : Report) : r.sorted.hasErrors = r.hasErrors :=
  any_sortedBy Diagnostic.same_equivalence (fun _ _ h => by rw [severity_eq_of_same h]) _

/-- A run ends as its findings and failures say, in whatever order they stand. -/
theorem exitCode_sorted (r : Report) (failOn : FailOn) : r.sorted.exitCode failOn = r.exitCode failOn := by
  have hfailed : r.sorted.failed.isEmpty = r.failed.isEmpty := by
    rw [Bool.eq_iff_iff, List.isEmpty_iff, List.isEmpty_iff]
    exact sortedBy_eq_nil_iff
  have hfails : (r.sorted.diagnostics.any fun d => failOn.fails d.severity) =
      r.diagnostics.any fun d => failOn.fails d.severity :=
    any_sortedBy Diagnostic.same_equivalence (fun _ _ h => by rw [severity_eq_of_same h]) _
  rw [exitCode, exitCode, hfailed, hfails]

theorem sorts_sorted (r : Report) : Sorts r r.sorted where
  ordered := by
    rw [diagnostics_sorted]
    exact pairwise_sortedBy r.diagnostics
  drawn _ := mem_of_mem_sortedDiagnostics
  kept _ := exists_same_mem_sortedBy Diagnostic.same_equivalence
  stable d := by
    have hlevel : ∀ a b, Diagnostic.same a b = true → Diagnostic.compare a b = .eq :=
      fun _ _ => Diagnostic.compare_eq_of_same
    rw [diagnostics_sorted, filter_level_sortedBy hlevel]
    exact dropRepeats_sublist _
  files := Path.sorts_sorted r.files
  failed := Path.sorts_sorted r.failed
  plays := rfl
  tasks := rfl
  hasErrors := hasErrors_sorted r
  exitCode := exitCode_sorted r

theorem sorted_sorted (r : Report) : r.sorted.sorted = r.sorted := by
  have hdiagnostics : sortedDiagnostics (sortedDiagnostics r.diagnostics) =
      sortedDiagnostics r.diagnostics := sortedBy_sortedBy r.diagnostics
  have hpaths : ∀ paths, Path.sorted (Path.sorted paths) = Path.sorted paths := sortedBy_sortedBy
  simp only [sorted, hdiagnostics, hpaths]

theorem sorted_merge_sorted (a b : Report) :
    (a.sorted.merge b.sorted).sorted = (a.merge b).sorted := by
  have hdiagnostics : sortedDiagnostics (sortedDiagnostics a.diagnostics ++
      sortedDiagnostics b.diagnostics) = sortedDiagnostics (a.diagnostics ++ b.diagnostics) :=
    sortedBy_append_sortedBy (fun _ _ => Diagnostic.compare_eq_of_same)
      Diagnostic.same_equivalence _ _
  have hpaths : ∀ l m, Path.sorted (Path.sorted l ++ Path.sorted m) = Path.sorted (l ++ m) :=
    sortedBy_append_sortedBy (fun _ _ => Path.compare_eq_eq_iff.mpr) Path.same_equivalence
  simp only [sorted, merge, hdiagnostics, hpaths]

/-- **Reports are sorted without loss, once or more often.** The sorted report has
the findings and files of a report in order and ends a run as it does; sorting it
again changes nothing. Two reports may be sorted before they are merged: the
sorted merge is the same. -/
theorem sorts_and_merges (a b : Report) :
    Sorts a a.sorted ∧ a.sorted.sorted = a.sorted ∧
      (a.merge b).sorted = (a.sorted.merge b.sorted).sorted := by
  refine ⟨sorts_sorted a, sorted_sorted a, ?_⟩
  exact (sorted_merge_sorted a b).symm

end Report

end PlaybookStyle
