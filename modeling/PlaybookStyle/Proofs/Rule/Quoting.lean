/-
Which of the quoting rules reports a scalar.

Two rules look at quoted booleans. A parameter in quotes is a matter of
`quoteStyle` whatever it spells, and a misspelt boolean is one of
`booleanLiteral` wherever it stands, so both report a quoted parameter that takes
a boolean and spells it in another way than `true` or `false`; the test and the
remark beside the rules have each scalar reported once. No other scalar is
reported by both (`Linter.check_booleans`).
-/

import PlaybookStyle.Proofs.Playbook.Scalars
import PlaybookStyle.Proofs.Rule.Findings

namespace PlaybookStyle

open Playbook

namespace Rule

/-! ### What each rule remarks -/

/-- A parameter is remarked if it is a string without quotes, or in single quotes
that spare nothing, or if it is in quotes and no string. -/
theorem isSome_quoteRemark?_iff (s : Scalar) :
    (quoteRemark? s).isSome = true ↔
      s.kind = .string ∧ (s.style = .unquoted ∨ s.style = .single ∧ '"' ∉ s.text.toList) ∨
        s.kind ≠ .string ∧ s.kind ≠ .null ∧ s.style.isQuoted = true := by
  unfold quoteRemark?
  cases hstyle : s.style <;> cases hkind : s.kind <;>
    simp [QuoteStyle.isQuoted]

theorem quoteStyle_remarks_ne_nil_iff {conventions : Conventions} {visit : Visit} {s : Scalar}
    (part : visit.part = .scalar s) :
    quoteStyle.remarks conventions visit ≠ [] ↔
      s.context = .moduleParam ∧ (quoteRemark? s).isSome = true := by
  simp only [quoteStyle, part]
  split_ifs with h <;> simp [h, Option.isSome_iff_ne_none]

theorem eq_canonicalBoolean_iff (text : String) :
    text = canonicalBoolean text ↔ text = "true" ∨ text = "false" := by
  constructor
  · intro h
    rw [h, canonicalBoolean]
    split
    · exact .inl rfl
    · exact .inr rfl
  · rintro (rfl | rfl) <;> decide +kernel

theorem isSome_booleanRemark?_iff (s : Scalar) :
    (booleanRemark? s).isSome = true ↔
      ¬(s.text = "true" ∨ s.text = "false") ∨
        s.style.isQuoted = true ∧ s.context ≠ .moduleParam := by
  have hspelling := eq_canonicalBoolean_iff s.text
  unfold booleanRemark?
  dsimp only
  split
  · rename_i h
    exact iff_of_true rfl (.inl (hspelling.not.mp h))
  · rename_i h
    have hspelt := hspelling.mp (not_not.mp h)
    split
    · rename_i quoted
      exact iff_of_true rfl (.inr (by simpa using quoted))
    · rename_i quoted
      refine iff_of_false Bool.false_ne_true ?_
      rintro (hnot | hquoted)
      · exact hnot hspelt
      · exact quoted (by simpa using hquoted)

/-! ### The kinds of parameters -/

/-- The kind of a parameter on a line is the one its module fixes for it, or else the
one of its text. -/
theorem kindOf_moduleParam {style : QuoteStyle} (h : style = .unquoted ∨ style.isQuoted = true)
    (text : String) (key? module? : Option String) :
    kindOf style text key? .moduleParam module? =
      (parameterKind? module? key? text).getD
        (textKind style text (key?.any booleanKeys.contains)) := by
  unfold kindOf
  cases style with
  | unquoted | double | single =>
    cases parameterKind? module? key? text <;> rfl
  | folded | literal | flow =>
    rcases h with h | h <;> cases h

/-- No module takes a condition or the name of a variable under a key for booleans. -/
theorem parameterKind?_of_booleanKey {key? : Option String}
    (h : key?.any booleanKeys.contains = true) (module? : Option String) (text : String) :
    parameterKind? module? key? text = none := by
  have hkey : key? ≠ some "that" ∧ key? ≠ some "var" := by
    constructor <;> (rintro rfl; revert h; decide)
  unfold parameterKind?
  split <;> simp_all

theorem parameterKind?_ne_boolean (module? key? : Option String) (text : String) :
    parameterKind? module? key? text ≠ some .boolean := by
  unfold parameterKind?
  split
  · simp
  · split <;> simp
  · simp

/-- A quoted parameter is a boolean if its key takes one and its text spells one. -/
theorem kindOf_quoted_eq_boolean_iff {style : QuoteStyle} (quoted : style.isQuoted = true)
    (text : String) (key? module? : Option String) :
    kindOf style text key? .moduleParam module? = .boolean ↔
      key?.any booleanKeys.contains = true ∧ isBooleanText text = true := by
  have htext : textKind style text (key?.any booleanKeys.contains) = .boolean ↔
      key?.any booleanKeys.contains = true ∧ isBooleanText text = true := by
    cases style with
    | double | single =>
      rw [← Bool.and_eq_true, textKind]
      split_ifs with hboolean hinteger <;> simp [hboolean]
    | unquoted | folded | literal | flow => cases quoted
  rw [kindOf_moduleParam (.inr quoted), ← htext]
  cases hkind : parameterKind? module? key? text with
  | none => rfl
  | some kind =>
    have hkey : ¬key?.any booleanKeys.contains = true := fun h => by
      rw [parameterKind?_of_booleanKey h] at hkind
      cases hkind
    have hne : kind ≠ .boolean := by
      rintro rfl
      exact parameterKind?_ne_boolean _ _ _ hkind
    rw [htext]
    exact iff_of_false hne fun h => hkey h.1

/-! ### Scalars that both rules report -/

/-- A parameter in quotes that takes a boolean, and spells it in another way than
`true` or `false`. -/
def IsMisspeltParameter (s : Scalar) : Prop :=
  s.context = .moduleParam ∧ s.style.isQuoted = true ∧
    s.key?.any booleanKeys.contains = true ∧ isBooleanText s.text = true ∧
      s.text ≠ "true" ∧ s.text ≠ "false"

instance (s : Scalar) : Decidable (IsMisspeltParameter s) := inferInstanceAs (Decidable (_ ∧ _))

/-- The two rules remark the same scalar only if it is such a parameter. -/
theorem remarked_twice_iff {conventions : Conventions} {visit : Visit} {s : Scalar}
    (part : visit.part = .scalar s) (typed : s.Typed) :
    quoteStyle.remarks conventions visit ≠ [] ∧ booleanLiteral.remarks conventions visit ≠ [] ↔
      IsMisspeltParameter s := by
  have hbooleans : booleanLiteral.remarks conventions visit ≠ [] ↔
      s.kind = .boolean ∧ (booleanRemark? s).isSome = true := by
    simp only [booleanLiteral, part]
    split_ifs with h <;> simp [h, Option.isSome_iff_ne_none]
  rw [quoteStyle_remarks_ne_nil_iff part, hbooleans, isSome_quoteRemark?_iff, isSome_booleanRemark?_iff]
  constructor
  · rintro ⟨⟨parameter, quotes⟩, boolean, spelt⟩
    have quoted : s.style.isQuoted = true := by
      rcases quotes with ⟨string, -⟩ | ⟨-, -, quoted⟩
      · rw [boolean] at string
        cases string
      · exact quoted
    obtain ⟨key, text⟩ := (kindOf_quoted_eq_boolean_iff quoted _ _ _).mp
      (show kindOf s.style s.text s.key? .moduleParam s.module? = .boolean by
        rw [← parameter, ← typed, boolean])
    refine ⟨parameter, quoted, key, text, ?_⟩
    rcases spelt with spelt | ⟨-, other⟩
    · exact not_or.mp spelt
    · exact absurd parameter other
  · rintro ⟨parameter, quoted, key, text, spelt⟩
    have boolean : s.kind = .boolean := by
      rw [typed, parameter, kindOf_quoted_eq_boolean_iff quoted]
      exact ⟨key, text⟩
    refine ⟨⟨parameter, .inr ⟨?_, ?_, quoted⟩⟩, boolean, .inl (not_or.mpr spelt)⟩ <;>
      simp [boolean]

end Rule

/-! ### The report -/

/-- A rule's finding about a scalar is in the report. -/
def Report.Blames (report : Report) (rule : Rule) (settings : Settings) (path : String)
    (visit : Visit) : Prop :=
  ∃ remark ∈ rule.remarks settings.conventions visit,
    rule.finding settings path remark ∈ report.diagnostics

theorem Report.Blames.remarks_ne_nil {report : Report} {rule : Rule} {settings : Settings}
    {path : String} {visit : Visit} (h : report.Blames rule settings path visit) :
    rule.remarks settings.conventions visit ≠ [] := by
  obtain ⟨remark, hremark, -⟩ := h
  exact List.ne_nil_of_mem hremark

/-- What a rule says of a part it looks at is in the report. -/
theorem Report.blames_of_remarks {report : Report} {rule : Rule} {settings : Settings}
    {path : String} {playbook : Playbook} {visit : Visit}
    (findings : ∀ d, d ∈ report.diagnostics ∧ d.rule = rule.id ↔
      ∃ visit ∈ playbook.visits, rule.kinds.contains visit.part.kind = true ∧
        ∃ remark ∈ rule.remarks settings.conventions visit, d = rule.finding settings path remark)
    (visited : visit ∈ playbook.visits) (kind : rule.kinds.contains visit.part.kind = true)
    (remarks : rule.remarks settings.conventions visit ≠ []) :
    report.Blames rule settings path visit := by
  obtain ⟨remark, hremark⟩ := List.exists_mem_of_ne_nil _ remarks
  exact ⟨remark, hremark, ((findings _).mpr ⟨visit, visited, kind, remark, hremark, rfl⟩).1⟩

theorem Playbook.Visit.kind_of_moduleParam {visit : Visit} {s : Scalar} (part : visit.part = .scalar s)
    (parameter : s.context = .moduleParam) : visit.part.kind = .scalar := by
  rw [part, Part.kind, parameter]
  rfl

/-- A scalar on the walk has the kind of its style, text, key and scope. -/
theorem Playbook.Visit.typed {path content : String} {playbook : Playbook}
    (parsed : Playbook.parse path content = .ok playbook) {visit : Visit}
    (visited : visit ∈ playbook.visits) {s : Scalar} (part : visit.part = .scalar s) : s.Typed := by
  have made := visits_made parsed visit visited
  rw [part] at made
  exact made.typed

namespace Linter

open Rule

/-- **A scalar is reported by both rules on quoted booleans** exactly if it is a
quoted parameter that takes a boolean and is spelt in another way than `true` or
`false`. -/
theorem check_booleans {settings : Settings} {linter : Linter} {path content : String}
    {playbook : Playbook} (accepted : ofSettings settings = .ok linter)
    (parsed : Playbook.parse path content = .ok playbook) (quotes : settings.Shows quoteStyle)
    (booleans : settings.Shows booleanLiteral) :
    ∃ report, linter.check path content = .ok report ∧
      ∀ visit ∈ playbook.visits, ∀ s, visit.part = .scalar s →
        (report.Blames quoteStyle settings path visit ∧
            report.Blames booleanLiteral settings path visit ↔
          IsMisspeltParameter s) := by
  obtain ⟨report, checked, findings⟩ := exists_check accepted parsed
  refine ⟨report, checked, fun visit hvisit s part => ?_⟩
  have typed : s.Typed := Visit.typed parsed hvisit part
  rw [← remarked_twice_iff part typed]
  refine ⟨fun blamed => ⟨blamed.1.remarks_ne_nil, blamed.2.remarks_ne_nil⟩, fun remarked => ?_⟩
  have hkind : visit.part.kind = .scalar :=
    Visit.kind_of_moduleParam part ((remarked_twice_iff part typed).mp remarked).1
  have hkinds : ∀ rule : Rule, rule.kinds = [.scalar] →
      rule.kinds.contains visit.part.kind = true := by
    intro rule h
    rw [h, hkind]
    rfl
  exact ⟨Report.blames_of_remarks (findings _ (by simp [builtin]) quotes) hvisit
      (hkinds _ rfl) remarked.1,
    Report.blames_of_remarks (findings _ (by simp [builtin]) booleans) hvisit
      (hkinds _ rfl) remarked.2⟩

/-- The service is to be enabled, in quotes and in an older spelling. -/
theorem check_booleans_yes :
    let content := "- hosts: all\n  tasks:\n    - service:\n        enabled: \"yes\"\n"
    ∃ (linter : Linter) (playbook : Playbook) (report : Report),
      ofSettings {} = .ok linter ∧ Playbook.parse "site.yml" content = .ok playbook ∧
      linter.check "site.yml" content = .ok report ∧
      ∃ visit ∈ playbook.visits, ∃ s, visit.part = .scalar s ∧ s.raw = "\"yes\"" ∧
        IsMisspeltParameter s ∧ report.Blames quoteStyle {} "site.yml" visit ∧
        report.Blames booleanLiteral {} "site.yml" visit := by
  intro content
  let linter : Linter := ⟨{}, .builtin, by decide⟩
  have accepted : ofSettings {} = .ok linter := rfl
  have misspelt : (Playbook.parse "site.yml" content).toOption.any (fun playbook =>
      playbook.visits.any fun visit => visit.part.scalar?.any fun s =>
        decide (s.raw = "\"yes\"" ∧ IsMisspeltParameter s)) = true := by
    decide +kernel
  cases parsed : Playbook.parse "site.yml" content with
  | error problem =>
    rw [parsed] at misspelt
    cases misspelt
  | ok playbook =>
    rw [parsed] at misspelt
    obtain ⟨visit, hvisit, hscalar⟩ := List.any_eq_true.mp misspelt
    obtain ⟨s, hs, hmisspelt⟩ := (Option.any_eq_true _ _).mp hscalar
    obtain ⟨hraw, hmisspelt⟩ := of_decide_eq_true hmisspelt
    have part := Part.eq_scalar_of_scalar? hs
    obtain ⟨report, checked, blamed⟩ :=
      check_booleans accepted parsed ⟨by decide, by decide⟩ ⟨by decide, by decide⟩
    exact ⟨linter, playbook, report, accepted, rfl, checked, visit, hvisit, s, part, hraw,
      hmisspelt, (blamed visit hvisit s part).mpr hmisspelt⟩

end Linter

end PlaybookStyle
