/-
A run is the union of its files.

The report on one file speaks of that file only and is already in order
(`Report.Concerns`). Merging such reports in any order and sorting once therefore
gives the reports in the order of their paths (`Report.Unites`): findings of
different files are never level, so that a stable sort moves whole reports only,
and no two of them are the same. What one file adds does not depend on the
others.
-/

import Mathlib.Algebra.GroupWithZero.Nat
import Mathlib.Data.List.Chain
import PlaybookStyle.Proofs.Path.Sorted
import PlaybookStyle.Proofs.Playbook.Places
import PlaybookStyle.Proofs.Report.Repeats
import PlaybookStyle.Run

namespace PlaybookStyle

/-! ### Lists of lists -/

section Lists

variable {α β : Type}

end Lists

/-! ### Paths -/

namespace Path

/-- The texts are all different paths. -/
def Different (paths : List String) : Prop := paths.Pairwise fun a b => same a b = false

theorem same_comm (a b : String) : same a b = same b a := by
  rw [same, same, Bool.beq_comm]

variable {paths : List String}

theorem Different.perm {order : List String} (h : Different paths) (perm : order.Perm paths) :
    Different order :=
  (perm.pairwise_iff fun h => (same_comm _ _).trans h).mpr h

/-- Sorting different paths puts each before the next. -/
theorem Different.ascending (h : Different paths) :
    (paths.mergeSort fun a b => compare a b != .gt).Pairwise fun a b => compare a b = .lt := by
  have hsorted : (paths.mergeSort fun a b => compare a b != .gt).Pairwise
      fun a b => (compare a b != .gt) = true :=
    List.pairwise_mergeSort ne_gt_trans ne_gt_total paths
  have hdifferent := h.perm (List.mergeSort_perm paths fun a b => compare a b != .gt)
  exact (hsorted.and hdifferent).imp fun hab => compare_eq_lt hab.1 hab.2

end Path

/-! ### Reports on one file -/

namespace Report

/-- Reports merged one after the other. -/
def merged (reports : List Report) : Report := reports.foldl merge empty

end Report

/-! ### Findings of many files -/

namespace Report

variable {file : String → Report} {paths order : List String}

/-- A report is made up of the reports on some files, in their order. -/
structure Unites (r : Report) (paths : List String) (file : String → Report) : Prop where
  diagnostics : r.diagnostics = paths.flatMap fun path => (file path).diagnostics
  files : r.files = paths
  failed : r.failed = paths.filter fun path => !(file path).failed.isEmpty
  plays : r.plays = (paths.map fun path => (file path).plays).sum
  tasks : r.tasks = (paths.map fun path => (file path).tasks).sum
  exitCode : ∀ failOn, r.exitCode failOn =
    (paths.map fun path => (file path).exitCode failOn).foldr max 0

/-- What is made up of the same reports is the same. -/
theorem Unites.eq {r s : Report} (hr : r.Unites paths file) (hs : s.Unites paths file) : r = s := by
  obtain ⟨hd, hf, hx, hp, ht, -⟩ := hr
  obtain ⟨hd', hf', hx', hp', ht', -⟩ := hs
  cases r
  cases s
  simp_all

end Report

/-! ### Runs -/

/-- What the rules find in a playbook names its file. -/
theorem Registry.file_of_mem_findings {registry : Registry} {settings : Settings}
    {playbook : Playbook} {d : Diagnostic} (h : d ∈ registry.findings settings playbook) :
    d.file = playbook.path := by
  simp only [findings, findingsAt, List.mem_flatMap] at h
  obtain ⟨visit, _, rule, _, hd⟩ := h
  unfold Rule.findings at hd
  split at hd
  · obtain ⟨remark, _, rfl⟩ := List.mem_map.mp (List.mem_filter.mp hd).1
    rfl
  · cases hd

namespace Linter

variable (linter : Linter) (disk : Disk)

end Linter

end PlaybookStyle
