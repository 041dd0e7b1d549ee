/-
Findings on one line.

A report shows every finding as a line of its own. That line is broken exactly if the finding
repeats a text with a line feed: a text that a rule has read on the walk, where an escape in
double quotes or a literal block may hold one, or, of a content that is refused, the way to the
node that is refused (`Diagnostic.Breaks`).

* `Linter.lint_lines` — the lines of the report on any content.
-/

import PlaybookStyle.Proofs.Rule.Findings
import PlaybookStyle.Proofs.Rule.Messages
import PlaybookStyle.Proofs.Yaml.Reasons

namespace PlaybookStyle

open Playbook Text

/-- The finding repeats a text with a line feed. -/
inductive Diagnostic.Breaks (settings : Settings) (path content : String) (d : Diagnostic) : Prop
  /-- A rule says it on the walk. -/
  | said {playbook : Playbook} {visit : Visit} {rule : Rule} {remark : Remark} {text : List Char}
      (load : Playbook.load path content = .ok playbook) (hvisit : visit ∈ playbook.visits)
      (hrule : rule ∈ Rule.builtin) (hremark : remark ∈ rule.remarks settings.conventions visit)
      (finding : d = rule.finding settings path remark)
      (repeats : rule.Repeats visit.part remark text) (feed : '\n' ∈ text)
      (style : ∀ s, visit.part = .scalar s → s.style = .double ∨ s.style = .literal)
  /-- It reports that a node is refused, and a key on the way to it has the line feed. -/
  | refused {way reason : String} {mark : Yaml.Mark} (plain : isEncryptedContent content = false)
      (read : Yaml.Value.read content = .error (.refused way reason mark))
      (finding : d = ((Problem.invalid (.refused way reason mark)).toFailure path).toDiagnostic path)
      (feed : '\n' ∈ way.toList)

/-- A finding is one line if its message is. -/
theorem Diagnostic.isLine_text_iff {d : Diagnostic} (file : IsLine d.file) (rule : IsLine d.rule) :
    IsLine d.text ↔ IsLine d.message := by
  have before : IsLine s!"{d.file}:{d.position.line}:{d.position.column}: [{d.rule}] " :=
    .append (.append (.append (.append (.append (.append (.append file (.lit (by decide)))
      (isLine_nat _)) (.lit (by decide))) (isLine_nat _)) (.lit (by decide))) rule) (.lit (by decide))
  exact isLine_append.trans (and_iff_right before)

namespace Playbook

variable {path content : String} {playbook : Playbook} {visit : Visit}

/-- On the walk over what is loaded stands the document alone, with its path, unless the content
is one that is parsed. -/
theorem document_or_parsed (load : Playbook.load path content = .ok playbook)
    (hvisit : visit ∈ playbook.visits) :
    visit.part = .document (.ofEncrypted path) ∨ Playbook.parse path content = .ok playbook := by
  rcases load_cases load with ⟨-, rfl⟩ | parsed
  · rw [List.mem_singleton.mp hvisit]
    exact .inl rfl
  · exact .inr parsed

theorem isLine_words (load : Playbook.load path content = .ok playbook) (hpath : IsLine path)
    (hvisit : visit ∈ playbook.visits) : ∀ word ∈ visit.part.words, IsLine word := by
  rcases document_or_parsed load hvisit with document | parsed
  · rw [document]
    exact List.forall_mem_singleton.mpr hpath
  · exact fun word hword => (words_written parsed hvisit word hword).isLine hpath

/-- A content that is not YAML is refused for it. -/
theorem load_of_read {e : Yaml.Error} (plain : isEncryptedContent content = false)
    (read : Yaml.Value.read content = .error e) :
    Playbook.load path content = .error ((Problem.invalid e).toFailure path) := by
  rw [Playbook.load, plain, if_neg Bool.false_ne_true, Playbook.parse, read]

/-- A content that is YAML and no playbook is refused for its shape. -/
theorem load_of_build {value : Yaml.Value} {problem : ShapeProblem}
    (plain : isEncryptedContent content = false) (read : Yaml.Value.read content = .ok value)
    (build : Playbook.build path content.toList value = .error problem) :
    Playbook.load path content = .error ((Problem.shape problem).toFailure path) := by
  rw [Playbook.load, plain, if_neg Bool.false_ne_true, Playbook.parse, read]
  simp only [build]

theorem ShapeProblem.isLine_message (problem : ShapeProblem) : IsLine problem.message := by
  cases problem <;> exact .lit (by decide)

end Playbook

theorem Rule.isLine_id : ∀ rule ∈ builtin, IsLine rule.id := by
  intro rule hrule
  simp only [builtin, List.mem_cons, List.not_mem_nil, or_false] at hrule
  rcases hrule with rfl | rfl | rfl | rfl | rfl | rfl | rfl | rfl | rfl | rfl | rfl | rfl | rfl |
    rfl | rfl | rfl
  all_goals exact .lit (by decide)

namespace Linter

variable {settings : Settings} {linter : Linter} {path content : String} {d : Diagnostic}

/-- What a rule says on the walk. -/
theorem not_isLine_finding_iff {playbook : Playbook} {visit : Visit} {rule : Rule} {remark : Remark}
    (load : Playbook.load path content = .ok playbook) (hpath : IsLine path)
    (hvisit : visit ∈ playbook.visits) (hrule : rule ∈ Rule.builtin)
    (hremark : remark ∈ rule.remarks settings.conventions visit) :
    ¬IsLine (rule.finding settings path remark).text ↔
      ∃ text, rule.Repeats visit.part remark text ∧ '\n' ∈ text := by
  have message : IsLine remark.message ↔ _ :=
    Rule.builtin_unbroken rule hrule _ visit (isLine_words load hpath hvisit) remark hremark
  rw [Diagnostic.isLine_text_iff hpath (Rule.isLine_id rule hrule)]
  exact (not_congr message).trans (by simp only [not_forall, not_not, exists_prop])

/-- The findings of rules. -/
theorem not_isLine_iff_of_load {playbook : Playbook} (accepted : ofSettings settings = .ok linter)
    (load : Playbook.load path content = .ok playbook) (hpath : IsLine path)
    (hd : d ∈ (linter.lint path content).diagnostics) :
    ¬IsLine d.text ↔ d.Breaks settings path content := by
  obtain ⟨report, checked, said⟩ := exists_check_remark accepted load
  rw [lint, checked] at hd
  constructor
  · intro broken
    obtain ⟨visit, hvisit, rule, hrule, -, remark, hremark, rfl⟩ := said d hd
    obtain ⟨text, repeats, feed⟩ :=
      (not_isLine_finding_iff load hpath hvisit hrule hremark).mp broken
    refine .said load hvisit hrule hremark rfl repeats feed fun s hpart => ?_
    rcases document_or_parsed load hvisit with document | parsed
    · cases document.symm.trans hpart
    · exact style_of_newline parsed hvisit hpart ((hpart ▸ repeats).subset feed)
  · intro breaks
    cases breaks with
    | said load' hvisit hrule hremark finding repeats feed =>
      rw [finding]
      exact (not_isLine_finding_iff load' hpath hvisit hrule hremark).mpr ⟨_, repeats, feed⟩
    | refused plain read =>
      cases load.symm.trans (load_of_read plain read)

/-- The finding that reports a content that is not YAML. -/
theorem not_isLine_iff_of_read {e : Yaml.Error} (plain : isEncryptedContent content = false)
    (read : Yaml.Value.read content = .error e) (hpath : IsLine path)
    (hd : d = ((Problem.invalid e).toFailure path).toDiagnostic path) :
    ¬IsLine d.text ↔ d.Breaks settings path content := by
  have rule : IsLine d.rule := by
    rw [hd]
    exact .lit (by decide)
  have message : IsLine d.message ↔
      ∀ way reason mark, e = .refused way reason mark → IsLine way := by
    rw [hd, ← Yaml.Error.isLine_message_iff (Yaml.Value.worded_of_read read)]
    exact isLine_append.trans (and_iff_right (.lit (by decide)))
  rw [Diagnostic.isLine_text_iff (hd ▸ hpath) rule, message]
  constructor
  · intro broken
    simp only [not_forall] at broken
    obtain ⟨way, reason, mark, rfl, feed⟩ := broken
    exact .refused plain read hd (not_not.mp feed)
  · intro breaks free
    cases breaks with
    | said load => cases load.symm.trans (load_of_read plain read)
    | refused _ read' _ feed => exact free _ _ _ (Except.error.inj (read.symm.trans read')) feed

/-- The finding that reports a content that is YAML and no playbook. -/
theorem not_isLine_iff_of_build {value : Yaml.Value} {problem : ShapeProblem}
    (plain : isEncryptedContent content = false) (read : Yaml.Value.read content = .ok value)
    (build : Playbook.build path content.toList value = .error problem) (hpath : IsLine path)
    (hd : d = ((Problem.shape problem).toFailure path).toDiagnostic path) :
    ¬IsLine d.text ↔ d.Breaks settings path content := by
  have rule : IsLine d.rule := by
    rw [hd]
    exact .lit (by decide)
  have message : IsLine d.message := hd ▸ problem.isLine_message
  refine iff_of_false (not_not.mpr ((Diagnostic.isLine_text_iff (hd ▸ hpath) rule).mpr message)) ?_
  intro breaks
  cases breaks with
  | said load => cases load.symm.trans (load_of_build plain read build)
  | refused _ read' => cases read.symm.trans read'

/-- **One finding, one line.** Whatever the content is, under all settings that are accepted and
at every path on one line, a line of the report is broken exactly if the finding repeats a text
with a line feed. -/
theorem lint_lines (accepted : ofSettings settings = .ok linter) (hpath : IsLine path) :
    ∀ line ∈ (linter.lint path content).lines, ∃ d ∈ (linter.lint path content).diagnostics,
      line = d.text ∧ (¬IsLine line ↔ d.Breaks settings path content) := by
  intro line hline
  obtain ⟨d, hd, rfl⟩ := List.mem_map.mp hline
  refine ⟨d, hd, rfl, ?_⟩
  cases load : Playbook.load path content with
  | ok playbook => exact not_isLine_iff_of_load accepted load hpath hd
  | error failure =>
    rw [lint, check, load] at hd
    have hfailure := List.mem_singleton.mp hd
    have plain : isEncryptedContent content = false := by
      by_contra encrypted
      rw [Playbook.load, if_pos (Bool.eq_true_of_not_eq_false encrypted)] at load
      cases load
    cases read : Yaml.Value.read content with
    | error e =>
      obtain rfl := Except.error.inj (load.symm.trans (load_of_read plain read))
      exact not_isLine_iff_of_read plain read hpath hfailure
    | ok value =>
      cases build : Playbook.build path content.toList value with
      | error problem =>
        obtain rfl := Except.error.inj (load.symm.trans (load_of_build plain read build))
        exact not_isLine_iff_of_build plain read build hpath hfailure
      | ok playbook => cases load.symm.trans (load_eq_of_build read build)

/-- An expression over two lines of a literal block. -/
theorem lint_lines_literal :
    let content := "- hosts: all\n  tasks:\n    - debug:\n        msg: |\n          \x7b\x7ba\n          \x7d\x7d\n"
    ∃ (linter : Linter) (d : Diagnostic), ofSettings {} = .ok linter ∧
      (linter.lint "site.yml" content).lines = [d.text] ∧ ¬IsLine d.text ∧
      d.Breaks {} "site.yml" content := by
  intro content
  let linter : Linter := ⟨{}, .builtin, by decide⟩
  have accepted : ofSettings {} = .ok linter := rfl
  have evaluated : (linter.lint "site.yml" content).lines =
      ["site.yml:4:14: [jinja-spacing] Jinja expression \x7b\x7ba\n\x7d\x7d should have exactly one space inside its delimiters"] := by
    decide +kernel
  have path : IsLine "site.yml" := .lit (by decide)
  obtain ⟨d, -, hline, breaks⟩ :=
    lint_lines accepted path _ (evaluated ▸ List.mem_singleton_self _)
  have broken : ¬IsLine d.text := by
    rw [← hline]
    exact mt isLine_ofList.mp (not_not.mpr (by decide))
  rw [hline] at breaks evaluated
  exact ⟨linter, d, accepted, evaluated, broken, breaks.mp broken⟩

end Linter

end PlaybookStyle
