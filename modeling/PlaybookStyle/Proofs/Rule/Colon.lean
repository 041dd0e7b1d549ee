/-
What the rule on colons reports.

The rule says the same about a colon whatever part has it (`keySpacing_remarks`). So
the findings of the rule on a playbook are what it says about the entries that the
walk reaches, no more and no less.

* `Linter.check_colons` — where the rule reports.
-/

import PlaybookStyle.Proofs.Playbook.Reached
import PlaybookStyle.Proofs.Rule.Findings
import PlaybookStyle.Proofs.Rule.Silence

namespace PlaybookStyle

open Text Playbook

/-- No blank stands before the colon, and one space before a value on its line. -/
def KeySpacing.IsRegular (s : KeySpacing) : Prop :=
  s.beforeColon = 0 ∧ s.tabAfterColon = false ∧ (s.afterColon = none ∨ s.afterColon = some 1)

instance (s : KeySpacing) : Decidable s.IsRegular := inferInstanceAs (Decidable (_ ∧ _ ∧ _))

/-! ### Entries of an outline stand in the text -/

theorem Outline.Node.Placed.stands {source : List Char} {n : Node} (h : n.Placed source) :
    ∀ e ∈ n.allEntries, e.Stands source := by
  induction h with
  | empty => simp
  | scalar => simp
  | sequence _ _ _ ih =>
    intro e he
    rw [allEntries_sequence] at he
    obtain ⟨item, hitem, he⟩ := List.mem_flatMap.mp he
    exact ih item hitem e he
  | mapping _ stands _ ih =>
    intro e he
    rw [allEntries_mapping] at he
    obtain ⟨entry, hentry, he⟩ := List.mem_flatMap.mp he
    rcases List.mem_cons.mp he with rfl | he
    · exact stands e hentry
    · exact ih entry hentry e he

/-! ### Remarks -/

namespace Rule

/-- What the rule says about a colon. -/
def remarksOn (c : Colon) : List Remark := colonRemarks c.key c.position c.spacing

/-- The rule looks at the colon of a part. -/
theorem keySpacing_remarks (conventions : Conventions) (visit : Visit) :
    keySpacing.remarks conventions visit = visit.part.colon?.toList.flatMap remarksOn := by
  obtain ⟨part, previous?⟩ := visit
  cases part with
  | entry e => exact (List.flatMap_singleton ..).symm
  | module m => exact (List.flatMap_singleton ..).symm
  | inclusion i => exact (List.flatMap_singleton ..).symm
  | _ => rfl

/-- The rule looks at every part that has a colon. -/
theorem keySpacing_mem_rulesFor {part : Part} {c : Colon} (h : part.colon? = some c) :
    keySpacing ∈ Registry.builtin.rulesFor part.kind := by
  have hrule : keySpacing ∈ builtin := by simp [builtin]
  refine List.mem_filter.mpr ⟨hrule, ?_⟩
  cases part with
  | entry e => rfl
  | module m => rfl
  | inclusion i => rfl
  | _ => cases h

/-- The rule has something to say about a colon, at its key, if its spacing is not
regular. -/
theorem exists_mem_remarksOn_iff {c : Colon} {position : Position} :
    (∃ remark ∈ remarksOn c, remark.position = position) ↔
      c.position = position ∧ ¬c.spacing.IsRegular := by
  have hsilent : remarksOn c = [] ↔ c.spacing.IsRegular := colonRemarks_eq_nil_iff
  rw [← hsilent]
  constructor
  · rintro ⟨remark, hremark, rfl⟩
    exact ⟨(colonRemarks_position hremark).symm, List.ne_nil_of_mem hremark⟩
  · rintro ⟨rfl, hsome⟩
    obtain ⟨remark, hremark⟩ := List.exists_mem_of_ne_nil _ hsome
    exact ⟨remark, hremark, colonRemarks_position hremark⟩

end Rule

/-! ### Findings -/

/-- A finding of the rule is what the rule says about a colon on the walk. -/
theorem Registry.mem_findings_keySpacing_iff {settings : Settings} {playbook : Playbook}
    (runs : settings.runs Rule.keySpacing.id Rule.keySpacing.category = true)
    (reports : settings.reports
      (settings.severityOf Rule.keySpacing.id Rule.keySpacing.severity) = true)
    {d : Diagnostic} :
    (d ∈ builtin.findings settings playbook ∧ d.rule = Rule.keySpacing.id) ↔
      ∃ c ∈ colons playbook.visits, ∃ remark ∈ Rule.remarksOn c,
        d = Rule.keySpacing.finding settings playbook.path remark := by
  rw [mem_findings_iff (by simp [Rule.builtin]) ⟨runs, reports⟩]
  constructor
  · rintro ⟨visit, hvisit, -, remark, hremark, rfl⟩
    rw [Rule.keySpacing_remarks] at hremark
    obtain ⟨c, hc, hremark⟩ := List.mem_flatMap.mp hremark
    exact ⟨c, List.mem_filterMap.mpr ⟨visit, hvisit, Option.mem_toList.mp hc⟩, remark, hremark, rfl⟩
  · rintro ⟨c, hc, remark, hremark, rfl⟩
    obtain ⟨visit, hvisit, hcolon⟩ := List.mem_filterMap.mp hc
    have hkind := (List.mem_filter.mp (Rule.keySpacing_mem_rulesFor hcolon)).2
    refine ⟨visit, hvisit, hkind, remark, ?_, rfl⟩
    rw [Rule.keySpacing_remarks, hcolon]
    exact List.mem_flatMap_of_mem (Option.mem_toList.mpr rfl) hremark

/-! ### Main statement -/

namespace Linter

/-- **Colons.** In any content that is accepted as a playbook, with the rule running
and its severity reported: the findings of the rule are what it says about the
entries that the walk reaches; so it reports exactly at those whose spacing is not
regular. The entries reached are entries of the outline, and stand in the content
with the blanks that their spacing counts. -/
theorem check_colons {settings : Settings} {linter : Linter} {path content : String}
    {playbook : Playbook} (accepted : ofSettings settings = .ok linter)
    (parsed : Playbook.parse path content = .ok playbook)
    (runs : settings.runs Rule.keySpacing.id Rule.keySpacing.category = true)
    (reports : settings.reports
      (settings.severityOf Rule.keySpacing.id Rule.keySpacing.severity) = true) :
    ∃ report, linter.check path content = .ok report ∧
      (∀ d, d ∈ report.diagnostics ∧ d.rule = Rule.keySpacing.id ↔
        ∃ e, Reached content e ∧ ∃ remark ∈ Rule.colonRemarks e.key e.position e.spacing,
          d = Rule.keySpacing.finding settings path remark) ∧
      (∀ position,
        (∃ d ∈ report.diagnostics, d.rule = Rule.keySpacing.id ∧ d.position = position) ↔
          ∃ e, Reached content e ∧ e.position = position ∧ ¬e.spacing.IsRegular) ∧
      ∀ e, Reached content e →
        e ∈ (Outline.scan content.toList).root.allEntries ∧ e.Stands content.toList := by
  obtain ⟨value, read, build⟩ := exists_read_of_parse parsed
  have hpath : playbook.path = path := path_of_build build
  have hchecked := check_of_load accepted (load_eq_of_build read build)
  have hfindings : ∀ d, (d ∈ Report.sortedDiagnostics (Registry.builtin.findings settings playbook) ∧
      d.rule = Rule.keySpacing.id) ↔
        ∃ e, Reached content e ∧ ∃ remark ∈ Rule.colonRemarks e.key e.position e.spacing,
          d = Rule.keySpacing.finding settings path remark := by
    intro d
    rw [Report.mem_sortedDiagnostics_iff fun d hd => Registry.file_of_mem_findings hd,
      Registry.mem_findings_keySpacing_iff runs reports, hpath]
    simp only [mem_colons_visits parsed]
    constructor
    · rintro ⟨_, ⟨e, he, rfl⟩, remark, hremark, rfl⟩
      exact ⟨e, he, remark, hremark, rfl⟩
    · rintro ⟨e, he, remark, hremark, rfl⟩
      exact ⟨e.colon, ⟨e, he, rfl⟩, remark, hremark, rfl⟩
  refine ⟨_, hchecked, hfindings, fun position => ?_, fun e he => ?_⟩
  · constructor
    · rintro ⟨d, hd, hrule, rfl⟩
      obtain ⟨e, he, remark, hremark, rfl⟩ := (hfindings d).mp ⟨hd, hrule⟩
      have hsaid : remark ∈ Rule.remarksOn e.colon := hremark
      exact ⟨e, he, Rule.exists_mem_remarksOn_iff.mp ⟨remark, hsaid, rfl⟩⟩
    · rintro ⟨e, he, hcrooked⟩
      obtain ⟨remark, hremark, rfl⟩ := (Rule.exists_mem_remarksOn_iff (c := e.colon)).mpr hcrooked
      obtain ⟨hd, hrule⟩ := (hfindings _).mpr ⟨e, he, remark, hremark, rfl⟩
      exact ⟨_, hd, hrule, rfl⟩
  · exact ⟨he.mem_allEntries, (Outline.scan_placed _).stands e he.mem_allEntries⟩

/-- The blank before the colon of `hosts` is reported. The key of the section, which has
one too, is not reached. -/
theorem check_colons_section :
    let content := "- hosts : all\n  tasks :\n    - ping:\n"
    ∃ (linter : Linter) (playbook : Playbook) (report : Report),
      ofSettings {} = .ok linter ∧ Playbook.parse "site.yml" content = .ok playbook ∧
      linter.check "site.yml" content = .ok report ∧
      report.diagnostics.map (fun d => (d.rule, d.position)) = [("key-spacing", ⟨1, 3⟩)] ∧
      (∃ e, Reached content e ∧ e.position = ⟨1, 3⟩ ∧ ¬e.spacing.IsRegular) ∧
      ¬∃ e, Reached content e ∧ e.position = ⟨2, 3⟩ ∧ ¬e.spacing.IsRegular := by
  intro content
  let linter : Linter := ⟨{}, .builtin, by decide⟩
  have accepted : ofSettings {} = .ok linter := rfl
  have isParsed : (Playbook.parse "site.yml" content).toOption.isSome = true := by decide +kernel
  cases parsed : Playbook.parse "site.yml" content with
  | error problem =>
    rw [parsed] at isParsed
    cases isParsed
  | ok playbook =>
    obtain ⟨report, checked, -, positions, -⟩ :=
      check_colons accepted parsed (by decide) (by decide)
    have evaluated : (linter.check "site.yml" content).toOption.map
        (·.diagnostics.map fun d => (d.rule, d.position)) = some [("key-spacing", ⟨1, 3⟩)] := by
      decide +kernel
    rw [checked] at evaluated
    have found : report.diagnostics.map (fun d => (d.rule, d.position)) =
        [("key-spacing", ⟨1, 3⟩)] := Option.some.inj evaluated
    have places : ∀ position, (∃ d ∈ report.diagnostics,
        d.rule = Rule.keySpacing.id ∧ d.position = position) ↔ position = ⟨1, 3⟩ := by
      intro position
      have hmem : (∃ d ∈ report.diagnostics,
          d.rule = Rule.keySpacing.id ∧ d.position = position) ↔
            ("key-spacing", position) ∈ report.diagnostics.map fun d => (d.rule, d.position) := by
        simp [Rule.keySpacing]
      rw [hmem, found]
      simp
    exact ⟨linter, playbook, report, accepted, rfl, checked, found,
      (positions _).mp ((places _).mpr rfl),
      fun h => absurd ((places _).mp ((positions _).mpr h)) (by decide)⟩

end Linter

end PlaybookStyle
