/-
Settings choose and grade findings, and do nothing else.

Everything a linter can find under given conventions is what it finds under the
plain settings with those conventions (`Settings.plain`): all rules run, no rule
is graded, and every severity is reported. Any other settings keep some of these
findings and give them other severities (`Settings.select`). The rules know
neither selection nor grades, so this holds at each visit of the walk
(`Rule.findings_eq_select`) and for a whole playbook; since all findings of a
rule have one category and one severity (`Uniform`), it also holds behind the
sorting of the report (`sortedDiagnostics_select`).
-/

import Mathlib.Data.List.Nodup
import PlaybookStyle.Linter
import PlaybookStyle.Proofs.Report.Sorting

namespace PlaybookStyle

open Playbook

/-! ### Choosing and grading -/

namespace Settings

/-- The settings with the same conventions under which every finding is reported
with the severity of its rule. -/
def plain (s : Settings) : Settings :=
  { extensions := s.extensions, vaultMarkers := s.vaultMarkers }

/-- A finding with the severity that is set for its rule. -/
def grade (s : Settings) (d : Diagnostic) : Diagnostic :=
  { d with severity := s.severityOf d.rule d.severity }

/-- The findings of rules that run, graded, as far as their severity is reported. -/
def select (s : Settings) (ds : List Diagnostic) : List Diagnostic :=
  ((ds.filter fun d => s.runs d.rule d.category).map s.grade).filter fun d => s.reports d.severity

variable (s : Settings)

@[simp] theorem conventions_plain : s.plain.conventions = s.conventions := rfl

@[simp] theorem namedRules_plain : s.plain.namedRules = [] := rfl

@[simp] theorem runs_plain (rule : String) (category : Category) :
    s.plain.runs rule category = true := rfl

/-- What is reported is at least as grave as the least severity that is set. -/
theorem reports_iff (severity : Severity) :
    s.reports severity = true ↔ s.minSeverity.rank ≤ severity.rank :=
  decide_eq_true_iff

@[simp] theorem reports_plain (severity : Severity) : s.plain.reports severity = true :=
  (s.plain.reports_iff severity).mpr (Nat.zero_le _)

theorem select_append (xs ys : List Diagnostic) :
    s.select (xs ++ ys) = s.select xs ++ s.select ys := by
  simp [select]

theorem select_cons (d : Diagnostic) (rest : List Diagnostic) :
    s.select (d :: rest) =
      (if s.runs d.rule d.category && s.reports (s.severityOf d.rule d.severity) then [s.grade d]
        else []) ++ s.select rest := by
  cases hruns : s.runs d.rule d.category <;>
    cases hreports : s.reports (s.severityOf d.rule d.severity) <;>
      simp [select, grade, hruns, hreports]

theorem select_flatMap {α : Type} (list : List α) (f : α → List Diagnostic) :
    s.select (list.flatMap f) = list.flatMap fun a => s.select (f a) := by
  induction list with
  | nil => rfl
  | cons a rest ih => rw [List.flatMap_cons, List.flatMap_cons, select_append, ih]

/-- What is selected among the findings of one rule depends only on whether the
rule runs, on its grade and on what is reported. -/
theorem filter_rule_select_congr {s t : Settings} {id : String} {ds : List Diagnostic}
    (runs : ∀ category, s.runs id category = t.runs id category)
    (graded : ∀ severity, s.severityOf id severity = t.severityOf id severity)
    (reported : s.minSeverity = t.minSeverity) :
    (s.select ds).filter (·.rule == id) = (t.select ds).filter (·.rule == id) := by
  induction ds with
  | nil => rfl
  | cons d rest ih =>
    rw [select_cons, select_cons, List.filter_append, List.filter_append, ih]
    congr 1
    by_cases hid : d.rule = id
    · subst hid
      have hgrade : s.grade d = t.grade d := by simp only [grade, graded]
      have hreports : ∀ severity, s.reports severity = t.reports severity := by
        simp only [reports, reported, implies_true]
      rw [runs, graded, hreports, hgrade]
    · have hnone : ∀ (u : Settings) (b : Bool),
          (if b then [u.grade d] else []).filter (·.rule == id) = [] := by
        intro u b
        cases b <;> simp [grade, hid]
      rw [hnone, hnone]

end Settings

/-! ### What rules find -/

namespace Rule

variable (rule : Rule) (settings : Settings) (path : String)

/-- At a visit, a rule finds what it finds under the plain settings, selected. -/
theorem findings_eq_select (visit : Visit) :
    rule.findings settings path visit = settings.select (rule.findings settings.plain path visit) := by
  have hplain : rule.findings settings.plain path visit =
      (rule.remarks settings.conventions visit).map (rule.finding settings.plain path) := by
    simp [findings]
  have hmap : (rule.remarks settings.conventions visit).map (rule.finding settings path) =
      (rule.findings settings.plain path visit).map settings.grade := by
    rw [hplain, List.map_map]
    rfl
  have hruns : ∀ d ∈ rule.findings settings.plain path visit,
      settings.runs d.rule d.category = settings.runs rule.id rule.category := by
    rw [hplain]
    intro d hd
    obtain ⟨remark, _, rfl⟩ := List.mem_map.mp hd
    rfl
  rw [Settings.select, findings, hmap]
  split
  · rename_i h
    have hall : (rule.findings settings.plain path visit).filter
        (fun d => settings.runs d.rule d.category) = rule.findings settings.plain path visit :=
      List.filter_eq_self.mpr fun d hd => (hruns d hd).trans h
    rw [hall]
  · rename_i h
    have hnone : (rule.findings settings.plain path visit).filter
        (fun d => settings.runs d.rule d.category) = [] :=
      List.filter_eq_nil_iff.mpr fun d hd => by rw [hruns d hd]; exact h
    rw [hnone]
    rfl

end Rule

namespace Registry

variable (registry : Registry) (settings : Settings)

/-- On a playbook, all rules together find what they find under the plain
settings, selected. -/
theorem findings_eq_select (playbook : Playbook) :
    registry.findings settings playbook =
      settings.select (registry.findings settings.plain playbook) := by
  unfold findings
  rw [Settings.select_flatMap]
  congr 1
  funext visit
  unfold findingsAt
  rw [Settings.select_flatMap]
  congr 1
  funext rule
  exact rule.findings_eq_select settings playbook.path visit

/-- A finding under the plain settings has name, category and severity of a rule. -/
theorem exists_rule_of_mem_findings {playbook : Playbook} {d : Diagnostic}
    (h : d ∈ registry.findings settings.plain playbook) :
    ∃ rule ∈ registry.rules,
      rule.id = d.rule ∧ rule.category = d.category ∧ rule.severity = d.severity := by
  simp only [findings, findingsAt, List.mem_flatMap] at h
  obtain ⟨visit, _, rule, hrule, hd⟩ := h
  simp only [Rule.findings, Settings.runs_plain, if_true, List.mem_filter, List.mem_map] at hd
  obtain ⟨⟨remark, _, rfl⟩, _⟩ := hd
  exact ⟨rule, (List.mem_filter.mp hrule).1, rfl, rfl, rfl⟩

end Registry

/-! ### Selection behind sorting -/

/-- All findings of a rule have one category and one severity. -/
def Uniform (ds : List Diagnostic) : Prop :=
  ∀ a ∈ ds, ∀ b ∈ ds, a.rule = b.rule → a.category = b.category ∧ a.severity = b.severity

theorem Registry.uniform_findings (registry : Registry) (settings : Settings)
    (playbook : Playbook) : Uniform (registry.findings settings.plain playbook) := by
  intro a ha b hb hrule
  obtain ⟨ra, hra, ida, cata, seva⟩ := registry.exists_rule_of_mem_findings settings ha
  obtain ⟨rb, hrb, idb, catb, sevb⟩ := registry.exists_rule_of_mem_findings settings hb
  have hid : ra.id = rb.id := ida.trans (hrule.trans idb.symm)
  have hsame : ra = rb := List.inj_on_of_nodup_map registry.distinct hra hrb hid
  subst hsame
  exact ⟨cata.symm.trans catb, seva.symm.trans sevb⟩

/-- Grading keeps order and sameness of findings that are uniform. -/
theorem Uniform.same_grade {ds : List Diagnostic} (uniform : Uniform ds) (s : Settings)
    {a b : Diagnostic} (ha : a ∈ ds) (hb : b ∈ ds) :
    Diagnostic.same (s.grade a) (s.grade b) = Diagnostic.same a b := by
  rw [Bool.eq_iff_iff, Diagnostic.same_iff, Diagnostic.same_iff]
  refine and_congr_right fun _ => ?_
  have hseverity := uniform a ha b hb
  cases a
  cases b
  simp only [Settings.grade, Diagnostic.mk.injEq] at hseverity ⊢
  constructor
  · rintro ⟨hfile, hposition, hrule, -, hrest⟩
    exact ⟨hfile, hposition, hrule, (hseverity hrule).2, hrest⟩
  · rintro ⟨hfile, hposition, rfl, rfl, hrest⟩
    exact ⟨hfile, hposition, rfl, rfl, hrest⟩

/-- Uniform findings may be selected before or after sorting. -/
theorem Uniform.sortedDiagnostics_select {ds : List Diagnostic} (uniform : Uniform ds)
    (s : Settings) :
    Report.sortedDiagnostics (s.select ds) = s.select (Report.sortedDiagnostics ds) := by
  have hrun : Uniform (ds.filter fun d => s.runs d.rule d.category) := fun a ha b hb =>
    uniform a (List.mem_filter.mp ha).1 b (List.mem_filter.mp hb).1
  unfold Settings.select
  rw [Report.sortedDiagnostics_filter, Report.sortedDiagnostics_map, Report.sortedDiagnostics_filter]
  · intro a ha b hb hrule
    rw [hrule, (uniform a ha b hb hrule).1]
  · exact fun a _ b _ => rfl
  · exact fun a ha b hb => hrun.same_grade s ha hb
  · intro a ha b hb hrule
    obtain ⟨a', ha', rfl⟩ := List.mem_map.mp ha
    obtain ⟨b', hb', rfl⟩ := List.mem_map.mp hb
    have hrule' : a'.rule = b'.rule := hrule
    simp only [Settings.grade, hrule', (hrun a' ha' b' hb' hrule').2]

/-! ### Linters -/

/-- A report with its findings selected. -/
def Settings.selectReport (s : Settings) (r : Report) : Report :=
  { r with diagnostics := s.select r.diagnostics }

namespace Linter

/-- Settings that name no rule are accepted by every registry. -/
theorem of_plain (s : Settings) (registry : Registry) :
    ∃ linter, of s.plain registry = .ok linter ∧ linter.settings = s.plain ∧
      linter.registry = registry :=
  ⟨⟨s.plain, registry, by simp⟩, rfl, rfl, rfl⟩

theorem eq_of_ofSettings_eq_ok {s : Settings} {linter : Linter} (h : ofSettings s = .ok linter) :
    linter.settings = s ∧ linter.registry = .builtin := by
  unfold ofSettings of at h
  split at h
  · cases h
  · cases h
    exact ⟨rfl, rfl⟩

/-- The report on a playbook that is loaded. -/
theorem check_of_load {s : Settings} {linter : Linter} (accepted : ofSettings s = .ok linter)
    {path content : String} {playbook : Playbook}
    (load : Playbook.load path content = .ok playbook) :
    linter.check path content =
      .ok (Report.sorted ⟨Registry.builtin.findings s playbook, [path], [], playbook.playCount,
        playbook.taskCount⟩) := by
  obtain ⟨hsettings, hregistry⟩ := eq_of_ofSettings_eq_ok accepted
  rw [check, load, hsettings, hregistry]

/-- The report of a linter is the report under the plain settings, selected; it
fails when that fails, and in the same way. -/
theorem check_eq_map_selectReport {linter base : Linter}
    (hsettings : base.settings = linter.settings.plain)
    (hregistry : base.registry = linter.registry)
    (path content : String) :
    linter.check path content = (base.check path content).map linter.settings.selectReport := by
  unfold check
  rw [hsettings, hregistry]
  cases Playbook.load path content with
  | error failure => rfl
  | ok playbook =>
    simp only [Except.map, Settings.selectReport, Report.sorted]
    rw [linter.registry.findings_eq_select, (linter.registry.uniform_findings _ _).sortedDiagnostics_select]

/-- A report that is not a failure is the sorted one on a playbook. -/
theorem exists_load_of_check {linter : Linter} {path content : String} {report : Report}
    (h : linter.check path content = .ok report) :
    ∃ playbook, Playbook.load path content = .ok playbook ∧
      report = .sorted ⟨linter.registry.findings linter.settings playbook, [path], [],
        playbook.playCount, playbook.taskCount⟩ := by
  unfold check at h
  cases hload : Playbook.load path content with
  | error failure => simp [hload] at h
  | ok playbook =>
    simp only [hload, Except.ok.injEq] at h
    exact ⟨playbook, rfl, h.symm⟩

theorem exists_rule_of_check_eq_ok {base : Linter} {s : Settings} {path content : String}
    {report : Report} (hsettings : base.settings = s.plain)
    (h : base.check path content = .ok report) {d : Diagnostic} (hd : d ∈ report.diagnostics) :
    ∃ rule ∈ base.registry.rules,
      rule.id = d.rule ∧ rule.category = d.category ∧ rule.severity = d.severity := by
  obtain ⟨playbook, -, rfl⟩ := exists_load_of_check h
  have hmem := Report.mem_of_mem_sortedDiagnostics hd
  rw [hsettings] at hmem
  exact base.registry.exists_rule_of_mem_findings s hmem

/-- **Settings filter findings.** Whatever built-in rules some settings name,
there is a linter for the plain settings with the same conventions; its findings
have the category and severity of their rules. Checking under the settings fails
exactly when checking under the plain ones fails, with the same failure. If not,
it has the same files and counts and, in the same order, the findings of rules
that run, each with the severity set for its rule, as far as that is reported.
Hence settings that treat one rule alike agree on its findings, whatever they
say of other rules. -/
theorem check_selects {settings : Settings} {linter : Linter}
    (accepted : ofSettings settings = .ok linter) (path content : String) :
    ∃ base, ofSettings settings.plain = .ok base ∧
      (∀ report, base.check path content = .ok report → ∀ d ∈ report.diagnostics,
        ∃ rule ∈ Rule.builtin,
          rule.id = d.rule ∧ rule.category = d.category ∧ rule.severity = d.severity) ∧
      linter.check path content = (base.check path content).map settings.selectReport ∧
      ∀ (other : Settings) (otherLinter : Linter), ofSettings other = .ok otherLinter →
        other.conventions = settings.conventions → other.minSeverity = settings.minSeverity →
        ∀ id, (∀ category, other.runs id category = settings.runs id category) →
          (∀ severity, other.severityOf id severity = settings.severityOf id severity) →
          (otherLinter.check path content).map (·.diagnostics.filter (·.rule == id)) =
            (linter.check path content).map (·.diagnostics.filter (·.rule == id)) := by
  obtain ⟨hsettings, hregistry⟩ := eq_of_ofSettings_eq_ok accepted
  obtain ⟨base, hbase, hplain, hbuiltin⟩ := of_plain settings .builtin
  have hcheck : linter.check path content = (base.check path content).map settings.selectReport := by
    rw [← hsettings]
    exact check_eq_map_selectReport (by rw [hplain, hsettings]) (by rw [hbuiltin, hregistry]) _ _
  refine ⟨base, hbase, ?_, hcheck, ?_⟩
  · intro report hreport d hd
    have h := exists_rule_of_check_eq_ok hplain hreport hd
    rwa [hbuiltin] at h
  · intro other otherLinter hother hconventions hseverity id hruns hgraded
    obtain ⟨hos, hor⟩ := eq_of_ofSettings_eq_ok hother
    have hotherPlain : other.plain = settings.plain := by
      simp only [Settings.conventions, Conventions.mk.injEq] at hconventions
      simp only [Settings.plain, hconventions]
    have hotherCheck : otherLinter.check path content =
        (base.check path content).map other.selectReport := by
      rw [← hos]
      exact check_eq_map_selectReport (by rw [hplain, hos, hotherPlain]) (by rw [hbuiltin, hor]) _ _
    rw [hotherCheck, hcheck]
    cases base.check path content with
    | error failure => rfl
    | ok report =>
      simp only [Except.map, Settings.selectReport,
        Settings.filter_rule_select_congr hruns hgraded hseverity]

/-- Skipping a rule, grading another and reporting from warnings on: the report
on a play is selected from the plain one, and its findings on quotes stay as they
are when another rule is skipped instead. -/
theorem check_selects_strict :
    ∃ strict lenient : Settings, ∃ linter base lenientLinter : Linter,
      strict.skipRules = ["key-spacing"] ∧ strict.grades = [("quote-style", .error)] ∧
      lenient.skipRules = ["map-syntax"] ∧ strict.minSeverity = .warning ∧
      ofSettings strict = .ok linter ∧ ofSettings lenient = .ok lenientLinter ∧
      ofSettings strict.plain = .ok base ∧
      linter.check "site.yml" "- hosts : all\n" =
        (base.check "site.yml" "- hosts : all\n").map strict.selectReport ∧
      (lenientLinter.check "site.yml" "- hosts : all\n").map
          (·.diagnostics.filter (·.rule == "quote-style")) =
        (linter.check "site.yml" "- hosts : all\n").map
          (·.diagnostics.filter (·.rule == "quote-style")) := by
  let strict : Settings :=
    { skipRules := ["key-spacing"], grades := [("quote-style", .error)], minSeverity := .warning }
  let lenient : Settings := { strict with skipRules := ["map-syntax"] }
  have accepted : ofSettings strict = .ok ⟨strict, .builtin, by decide⟩ := rfl
  have acceptedLenient : ofSettings lenient = .ok ⟨lenient, .builtin, by decide⟩ := rfl
  obtain ⟨base, hbase, _, hcheck, hother⟩ := check_selects accepted "site.yml" "- hosts : all\n"
  refine ⟨strict, lenient, _, base, _, rfl, rfl, rfl, rfl, accepted, acceptedLenient, hbase,
    hcheck, ?_⟩
  exact hother lenient _ acceptedLenient rfl rfl "quote-style" (fun _ => rfl) fun _ => rfl

end Linter

end PlaybookStyle
