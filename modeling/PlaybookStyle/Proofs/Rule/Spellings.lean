/-
One parameter in two spellings.

In quotes an integer is known by its form, without quotes by what YAML takes it for,
and booleans and the parameters whose kind the module fixes are the same in either
spelling. So `quoteStyle` asks for quotes around a bare parameter and against them
around the quoted one only where the two ways of knowing an integer part: it is out
of range for YAML (`Linter.check_spellings`).
-/

import PlaybookStyle.Proofs.Rule.Quoting
import PlaybookStyle.Proofs.Yaml.Integers

namespace PlaybookStyle

open Playbook

namespace Rule

/-- The text is an integer for which YAML has no number. -/
def IsStrayInteger (text : String) : Prop :=
  isInteger text = true ∧ ∃ n, Yaml.integer? text.toList = some n ∧ IsOutOfRange n

/-- The parameter is a condition of `assert`. -/
def IsAssertion (module? key? : Option String) : Prop :=
  module?.map shortModuleName = some "assert" ∧ key? = some "that"

/-! ### Integers among the parameters -/

/-- No integer refers to a variable. -/
theorem isReference_of_isInteger {text : String} (h : isInteger text = true) :
    isReference text = false := by
  obtain ⟨negative, digits, hnumeral, htext⟩ := exists_numeral_of_isInteger h
  have hstart : Yaml.wordChars.all (!isIdentifierStart ·) = true := rfl
  obtain ⟨c, rest, hcons⟩ :=
    List.exists_cons_of_ne_nil (hnumeral.isWordText_signed negative).filled
  have hc := (hnumeral.isWordText_signed negative).chars c (by rw [hcons]; exact List.mem_cons_self)
  have hno : isIdentifierStart c = false := by simpa using List.all_eq_true.mp hstart c hc
  rw [isReference, htext, hcons, isReferenceFrom, hno, Bool.false_and]

/-- Of an integer a module fixes the kind only where it is a condition. -/
theorem parameterKind?_of_isInteger {text : String} (h : isInteger text = true)
    {module? key? : Option String} :
    parameterKind? module? key? text = none ↔ ¬IsAssertion module? key? := by
  unfold parameterKind? IsAssertion
  split
  · rename_i hmodule
    simp [hmodule]
  · rename_i hmodule
    simp [isReference_of_isInteger h, hmodule]
  · rename_i hother _
    exact iff_of_true rfl fun hboth => hother hboth.1 hboth.2

/-- An integer that is out of range spells no boolean. -/
theorem IsStrayInteger.not_boolean {text : String} (h : IsStrayInteger text) :
    text ∉ booleanTokens ∧ isBooleanText text = false := by
  obtain ⟨hinteger, n, hn, hout⟩ := h
  have htoken : text ∉ booleanTokens := by
    have htokens : ∀ token ∈ booleanTokens, isInteger token = false := by decide
    intro hmem
    rw [htokens text hmem] at hinteger
    cases hinteger
  have hdigit : text ≠ "1" ∧ text ≠ "0" := by
    constructor <;>
    · rintro rfl
      obtain rfl := Option.some.inj hn
      revert hout
      decide
  refine ⟨htoken, ?_⟩
  simp [isBooleanText, htoken, hdigit]

/-- As a bare parameter such an integer is a string. -/
theorem isStrayInteger_iff {text : String} :
    IsStrayInteger text ↔ isInteger text = true ∧ plainKind text = .string := by
  refine and_congr_right fun hinteger => ?_
  obtain ⟨n, hn, hkind⟩ := plainKind_of_isInteger hinteger
  rw [hkind]
  constructor
  · rintro ⟨m, hm, hout⟩
    obtain rfl := Option.some.inj (hn.symm.trans hm)
    exact if_pos hout
  · intro hstring
    refine ⟨n, hn, ?_⟩
    by_contra hin
    rw [if_neg hin] at hstring
    cases hstring

/-! ### Two spellings of a parameter -/

/-- A scalar in double quotes and a bare one are two spellings of one parameter. -/
structure Respelt (quoted bare : Scalar) : Prop where
  double : quoted.style = .double
  plain : bare.style = .unquoted
  parameters : quoted.context = .moduleParam ∧ bare.context = .moduleParam
  module : bare.module? = quoted.module?
  key : bare.key? = quoted.key?
  text : bare.text = quoted.text

/-- Both spellings of a parameter are remarked exactly if its text is an integer that is
out of range, and the parameter no condition of `assert`. -/
theorem remarked_both_iff {quoted bare : Scalar} (typed : quoted.Typed) (typed' : bare.Typed)
    (respelt : Respelt quoted bare) {conventions : Conventions} {visit visit' : Visit}
    (part : visit.part = .scalar quoted) (part' : visit'.part = .scalar bare) :
    quoteStyle.remarks conventions visit ≠ [] ∧ quoteStyle.remarks conventions visit' ≠ [] ↔
      IsStrayInteger quoted.text ∧ ¬IsAssertion quoted.module? quoted.key? := by
  obtain ⟨double, plain, ⟨parameter, parameter'⟩, module, key, text⟩ := respelt
  have hquoted : quoted.kind = (parameterKind? quoted.module? quoted.key? quoted.text).getD
      (textKind .double quoted.text (quoted.key?.any booleanKeys.contains)) := by
    rw [typed, double, parameter, kindOf_moduleParam (.inr rfl)]
  have hbare : bare.kind = (parameterKind? quoted.module? quoted.key? quoted.text).getD
      (textKind .unquoted quoted.text (quoted.key?.any booleanKeys.contains)) := by
    rw [typed', plain, parameter', module, key, text, kindOf_moduleParam (.inl rfl)]
  have hboth : quoteStyle.remarks conventions visit ≠ [] ∧
        quoteStyle.remarks conventions visit' ≠ [] ↔
      (quoted.kind ≠ .string ∧ quoted.kind ≠ .null) ∧ bare.kind = .string := by
    rw [quoteStyle_remarks_ne_nil_iff part, quoteStyle_remarks_ne_nil_iff part',
      isSome_quoteRemark?_iff, isSome_quoteRemark?_iff]
    simp [double, plain, parameter, parameter', QuoteStyle.isQuoted]
  rw [hboth, hquoted, hbare]
  constructor
  · rintro ⟨⟨hstring, hnull⟩, hbareString⟩
    have hfree : parameterKind? quoted.module? quoted.key? quoted.text = none := by
      cases hfixed : parameterKind? quoted.module? quoted.key? quoted.text with
      | none => rfl
      | some kind =>
        rw [hfixed] at hstring hbareString
        exact absurd hbareString hstring
    rw [hfree, Option.getD_none] at hstring hbareString
    -- Without quotes the text is a string to YAML, so in quotes it can only be an integer.
    unfold textKind at hstring hbareString
    dsimp only at hstring hbareString
    split at hbareString
    · cases hbareString
    · rename_i hplain
      rw [Bool.or_eq_true, not_or] at hplain
      rw [if_neg hplain.2] at hstring
      split at hstring
      · rename_i hinteger
        exact ⟨isStrayInteger_iff.mpr ⟨hinteger, hbareString⟩,
          (parameterKind?_of_isInteger hinteger).mp hfree⟩
      · exact absurd rfl hstring
  · rintro ⟨stray, hassertion⟩
    obtain ⟨htoken, hboolean⟩ := stray.not_boolean
    obtain ⟨hinteger, hkind⟩ := isStrayInteger_iff.mp stray
    rw [(parameterKind?_of_isInteger hinteger).mpr hassertion]
    simp [textKind, htoken, hboolean, hinteger, hkind]

end Rule

namespace Linter

open Rule

/-- **Two spellings of a parameter**, in accepted texts or in one, are both reported
exactly if the text is an integer that is out of range, and the parameter no condition
of `assert`; every other value has a spelling that is not reported. -/
theorem check_spellings {settings : Settings} {linter : Linter} {path content path' content' : String}
    {playbook playbook' : Playbook} (accepted : ofSettings settings = .ok linter)
    (parsed : Playbook.parse path content = .ok playbook)
    (parsed' : Playbook.parse path' content' = .ok playbook')
    (quotes : settings.Shows quoteStyle) :
    ∃ report report', linter.check path content = .ok report ∧
      linter.check path' content' = .ok report' ∧
      ∀ visit ∈ playbook.visits, ∀ visit' ∈ playbook'.visits, ∀ quoted bare,
        visit.part = .scalar quoted → visit'.part = .scalar bare → Respelt quoted bare →
          (report.Blames quoteStyle settings path visit ∧
              report'.Blames quoteStyle settings path' visit' ↔
            IsStrayInteger quoted.text ∧ ¬IsAssertion quoted.module? quoted.key?) := by
  obtain ⟨report, checked, findings⟩ := exists_check accepted parsed
  obtain ⟨report', checked', findings'⟩ := exists_check accepted parsed'
  refine ⟨report, report', checked, checked', ?_⟩
  intro visit hvisit visit' hvisit' quoted bare part part' respelt
  rw [← remarked_both_iff (Visit.typed parsed hvisit part) (Visit.typed parsed' hvisit' part')
    respelt part part']
  constructor
  · rintro ⟨blamed, blamed'⟩
    exact ⟨blamed.remarks_ne_nil, blamed'.remarks_ne_nil⟩
  · rintro ⟨remarked, remarked'⟩
    have hkind := Visit.kind_of_moduleParam part respelt.parameters.1
    have hkind' := Visit.kind_of_moduleParam part' respelt.parameters.2
    exact ⟨Report.blames_of_remarks (findings _ (by simp [builtin]) quotes) hvisit
        (by rw [hkind]; rfl) remarked,
      Report.blames_of_remarks (findings' _ (by simp [builtin]) quotes) hvisit'
        (by rw [hkind']; rfl) remarked'⟩

/-- The first integer that does not fit 64 bits, in quotes and, told to be a text, bare. -/
theorem check_spellings_stray :
    let content := "- hosts: all\n  tasks:\n    - m:\n        a: \"18446744073709551616\"\n" ++
      "    - m:\n        a: !!str 18446744073709551616\n"
    ∃ (linter : Linter) (playbook : Playbook) (report : Report),
      ofSettings {} = .ok linter ∧ Playbook.parse "site.yml" content = .ok playbook ∧
      linter.check "site.yml" content = .ok report ∧
      ∃ visit ∈ playbook.visits, ∃ visit' ∈ playbook.visits, ∃ quoted bare,
        visit.part = .scalar quoted ∧ visit'.part = .scalar bare ∧ Respelt quoted bare ∧
        IsStrayInteger quoted.text ∧ report.Blames quoteStyle {} "site.yml" visit ∧
        report.Blames quoteStyle {} "site.yml" visit' := by
  intro content
  let linter : Linter := ⟨{}, .builtin, by decide⟩
  have accepted : ofSettings {} = .ok linter := rfl
  let spelt (style : QuoteStyle) (visit : Visit) : Bool := visit.part.scalar?.any fun s =>
    (s.style, s.context, s.module?, s.key?, s.text) =
      (style, .moduleParam, some "m", some "a", "18446744073709551616")
  have found : (Playbook.parse "site.yml" content).toOption.any (fun playbook =>
      playbook.visits.any (spelt .double) && playbook.visits.any (spelt .unquoted)) = true := by
    decide +kernel
  have scalar : ∀ {style visit}, spelt style visit = true → ∃ s, visit.part = .scalar s ∧
      s.style = style ∧ s.context = .moduleParam ∧ s.module? = some "m" ∧ s.key? = some "a" ∧
        s.text = "18446744073709551616" := by
    intro style visit h
    obtain ⟨s, hs, h⟩ := (Option.any_eq_true _ _).mp h
    refine ⟨s, Part.eq_scalar_of_scalar? hs, ?_⟩
    simpa using of_decide_eq_true h
  cases parsed : Playbook.parse "site.yml" content with
  | error problem =>
    rw [parsed] at found
    cases found
  | ok playbook =>
    rw [parsed] at found
    obtain ⟨hquoted, hbare⟩ := Bool.and_eq_true_iff.mp found
    obtain ⟨visit, hvisit, hquoted⟩ := List.any_eq_true.mp hquoted
    obtain ⟨visit', hvisit', hbare⟩ := List.any_eq_true.mp hbare
    obtain ⟨quoted, part, double, parameter, module, key, text⟩ := scalar hquoted
    obtain ⟨bare, part', plain, parameter', module', key', text'⟩ := scalar hbare
    have respelt : Respelt quoted bare := ⟨double, plain, ⟨parameter, parameter'⟩,
      module'.trans module.symm, key'.trans key.symm, text'.trans text.symm⟩
    have stray : IsStrayInteger quoted.text := by
      rw [text]
      exact ⟨by decide, 2 ^ 64, by decide, by decide⟩
    have free : ¬IsAssertion quoted.module? quoted.key? := by
      rw [module, key]
      exact fun h => absurd h.2 (by decide)
    obtain ⟨report, report', checked, checked', blamed⟩ :=
      check_spellings accepted parsed parsed ⟨by decide, by decide⟩
    obtain rfl := Except.ok.inj (checked.symm.trans checked')
    exact ⟨linter, playbook, report, accepted, rfl, checked, visit, hvisit, visit', hvisit', quoted,
      bare, part, part', respelt, stray,
      (blamed visit hvisit visit' hvisit' quoted bare part part' respelt).mpr ⟨stray, free⟩⟩

end Linter

end PlaybookStyle
