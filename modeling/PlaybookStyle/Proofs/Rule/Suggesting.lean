/-
What is read where a suggestion of the quoting rules is followed.

The rules on quotes suggest the text of a scalar for its token, in double quotes or in none
(`Rule.Offers`), and do not look at what that text holds. Pasted in place of the token it is
read as the same text if it is verbatim, or plain (`Rule.Keeps`); a quote or an escape in it
is read again.

* `Linter.check_suggestions` — every finding of these rules about a scalar on one line.
-/

import PlaybookStyle.Proofs.Outline.Editing
import PlaybookStyle.Proofs.Rule.Quoting

namespace PlaybookStyle

open Playbook Text

/-- The scalar whose token a rule on quotes looks at. -/
def Playbook.Part.token? : Part → Option Scalar
  | .scalar s => some s
  | .inclusion i => some i.target
  | _ => none

theorem Playbook.Part.MadeOf.of_token? {A : Outline.Scalar → Prop} {part : Part} {s : Scalar}
    (made : part.MadeOf A) (token : part.token? = some s) : s.MadeOf A := by
  cases part with
  | scalar found =>
    obtain rfl := Option.some.inj token
    exact made
  | inclusion i =>
    obtain rfl := Option.some.inj token
    exact made
  | _ => cases token

/-- In the outline of a source a scalar with the text stands at the place, held by a key or
dash. -/
def Outline.HoldsText (source : List Char) (holder last : Nat) (place : Position) (text : String) :
    Prop :=
  ∃ s, (Outline.scan source).root.Holds holder last s ∧ s.position = place ∧ s.text = text

namespace Rule

/-! ### What is suggested -/

/-- What may be suggested for the token of a scalar: its text in double quotes if it has none
or single ones, and else its text without quotes. -/
inductive Offers (s : Scalar) : String → Prop
  | quotes (style : s.style = .unquoted ∨ s.style = .single) : Offers s (inDoubleQuotes s.text)
  | none (quoted : s.style.isQuoted = true) : Offers s s.text

theorem exists_offers_of_quoteRemark? {s : Scalar} {remark : Remark}
    (h : quoteRemark? s = some remark) :
    remark.position = s.position ∧ ∃ suggestion, remark.suggestion? = some suggestion ∧
      Offers s suggestion := by
  unfold quoteRemark? at h
  split at h
  all_goals first | cases h | skip
  · rename_i style _
    split at h
    · cases h
    · obtain rfl := Option.some.inj h
      exact ⟨rfl, _, rfl, .quotes (.inr style)⟩
  · rename_i style _
    exact ⟨rfl, _, rfl, .quotes (.inl style)⟩
  · rename_i style _ _
    exact ⟨rfl, _, rfl, .none (by rw [style]; rfl)⟩
  · rename_i style _ _
    exact ⟨rfl, _, rfl, .none (by rw [style]; rfl)⟩

/-- A rule on quotes speaks of the token of a scalar, and offers another. -/
theorem exists_offers {rule : Rule} (quoting : rule = quoteStyle ∨ rule = includeQuoting)
    {conventions : Conventions} {visit : Visit} {remark : Remark}
    (h : remark ∈ rule.remarks conventions visit) :
    ∃ s, visit.part.token? = some s ∧ remark.position = s.position ∧
      ∃ suggestion, remark.suggestion? = some suggestion ∧ Offers s suggestion := by
  rcases quoting with rfl | rfl
  · simp only [quoteStyle] at h
    split at h
    · rename_i s part
      split at h
      · exact ⟨s, by rw [part]; rfl, exists_offers_of_quoteRemark? (Option.mem_toList.mp h)⟩
      · cases h
    · cases h
  · simp only [includeQuoting] at h
    split at h
    · rename_i i part
      have hremark := Option.mem_toList.mp h
      unfold targetRemark? at hremark
      split at hremark
      · rename_i quoted
        obtain rfl := Option.some.inj hremark
        exact ⟨i.target, by rw [part]; rfl, rfl, _, rfl,
          .none (Bool.and_eq_true_iff.mp quoted).1⟩
      · cases hremark
    · cases h

/-! ### What is read in its place -/

/-- What it takes for a suggestion to be read as the text of the scalar, with the rest of its
line behind it. In double quotes the text has to be verbatim. Without quotes it has to be
plain, nothing deeper than the key or dash that holds it follows, and where no key stands on
the line it brings none. -/
inductive Keeps (source : List Char) (holder : Nat) (s : Scalar) (after : List Char) :
    String → Prop
  | quotes (verbatim : Outline.Verbatim s.text.toList) :
      Keeps source holder s after (inDoubleQuotes s.text)
  | none (line : '\n' ∉ s.text.toList) (bare : Outline.Bare s.text.toList after)
      (shallow : ∀ next ∈ (Outline.linesAfter source s.position.line).head?, next.indent ≤ holder)
      (alone : Outline.BeginsAlone source s.position →
        Outline.StaysAlone (trimEnd (s.raw.toList ++ after)) (trimEnd (s.text.toList ++ after))) :
      Keeps source holder s after s.text

theorem toList_inDoubleQuotes (text : String) :
    (inDoubleQuotes text).toList = '"' :: (text.toList ++ ['"']) := by
  simp [inDoubleQuotes]

theorem inDoubleQuotes_ne (text : String) : inDoubleQuotes text ≠ text := by
  intro h
  have hlength := congrArg (List.length ∘ String.toList) h
  simp [toList_inDoubleQuotes] at hlength
  omega

/-- A text in double quotes is kept exactly if the scanner, which ends it at the next quote and
takes escapes for what they stand for, is left with the text itself. -/
theorem keeps_inDoubleQuotes_iff {source : List Char} {holder : Nat} {s : Scalar}
    {after : List Char} :
    Keeps source holder s after (inDoubleQuotes s.text) ↔
      (∀ more, Outline.splitDouble (s.text.toList ++ '"' :: more) = some (s.text.toList, more)) ∧
        Outline.unescape s.text.toList = s.text.toList := by
  rw [← Outline.verbatim_iff]
  constructor
  · intro keeps
    generalize hsuggestion : inDoubleQuotes s.text = suggestion at keeps
    cases keeps with
    | quotes verbatim => exact verbatim
    | none => exact absurd hsuggestion (inDoubleQuotes_ne _)
  · exact .quotes

/-- **A suggestion that keeps the text** is read as a scalar with this text, at the same
place and held by the same key or dash. -/
theorem Keeps.holdsText {source front rest : List Char} {holder last : Nat}
    {origin : Outline.Scalar} {key? : Option String} {scope : Scope} {suggestion : String}
    (keeps : Keeps source holder (Scalar.ofOutline origin key? scope) (restOfLine rest) suggestion)
    (offers : Offers (Scalar.ofOutline origin key? scope) suggestion)
    (held : (Outline.scan source).root.Holds holder last origin)
    (single : origin.endLine = origin.position.line)
    (exchanged : ∀ token', '\n' ∉ token' → token' ≠ [] →
      Outline.Retokens origin.position origin.raw.toList token' (restOfLine rest) source
        (front ++ (token' ++ rest))) :
    Outline.HoldsText (front ++ (suggestion.toList ++ rest)) holder last origin.position
      origin.text := by
  generalize hs : Scalar.ofOutline origin key? scope = s at keeps offers
  have htext : s.text = origin.text := by rw [← hs]; rfl
  have hstyle : s.style = origin.style := by rw [← hs]; rfl
  have hraw : s.raw = origin.raw := by rw [← hs]; rfl
  have hplace : s.position = origin.position := by rw [← hs]; rfl
  cases keeps with
  | quotes verbatim =>
    generalize hsuggestion : inDoubleQuotes s.text = suggestion at offers
    cases offers with
    | quotes style =>
      rw [hstyle] at style
      rw [htext] at verbatim
      rw [← hsuggestion, toList_inDoubleQuotes, htext]
      have hnewline := Outline.newline_not_mem_text held single style
      refine (exchanged _ ?_ (List.cons_ne_nil _ _)).quoted held single style verbatim
      simpa using hnewline
    | none => exact absurd hsuggestion (inDoubleQuotes_ne _)
  | none line bare shallow alone =>
    rw [htext] at line bare alone ⊢
    rw [hplace] at shallow alone
    rw [hraw] at alone
    have present : origin.text.toList ≠ [] := by
      obtain ⟨c, more, hcons, -⟩ := bare.first
      rw [hcons]
      exact List.cons_ne_nil _ _
    exact (exchanged _ line present).bare held bare shallow alone

end Rule

namespace Linter

open Rule

/-- **Following a suggestion on quotes keeps the value** of a scalar on one line, if the
suggested token keeps the text. -/
theorem check_suggestions {settings : Settings} {linter : Linter} {path content : String}
    {playbook : Playbook} (accepted : ofSettings settings = .ok linter)
    (parsed : Playbook.parse path content = .ok playbook) :
    ∃ report, linter.check path content = .ok report ∧
      ∀ d ∈ report.diagnostics, d.rule = quoteStyle.id ∨ d.rule = includeQuoting.id →
        ∃ visit ∈ playbook.visits, ∃ s, visit.part.token? = some s ∧ d.position = s.position ∧
          ∃ suggestion, d.suggestion? = some suggestion ∧ Offers s suggestion ∧
            (s.endLine = s.position.line → ∃ front rest holder last,
              content.toList = front ++ (s.raw.toList ++ rest) ∧ placeBehind front = s.position ∧
                Outline.HoldsText content.toList holder last s.position s.text ∧
                (Keeps content.toList holder s (restOfLine rest) suggestion →
                  Outline.HoldsText (front ++ (suggestion.toList ++ rest)) holder last s.position
                    s.text)) := by
  obtain ⟨value, read, build⟩ := exists_read_of_parse parsed
  refine ⟨_, check_of_load accepted (load_eq_of_build read build), fun d hd hrule => ?_⟩
  obtain ⟨visit, hvisit, hd⟩ := List.mem_flatMap.mp (Report.mem_of_mem_sortedDiagnostics hd)
  obtain ⟨rule, hmem, remark, hremark, rfl⟩ := Registry.exists_remark_of_mem_findingsAt hd
  have registered := (List.mem_filter.mp hmem).1
  have quoting : rule = quoteStyle ∨ rule = includeQuoting := by
    refine hrule.imp ?_ ?_ <;> intro hid
    · exact List.inj_on_of_nodup_map Registry.builtin.distinct registered
        (show quoteStyle ∈ builtin by simp [builtin]) hid
    · exact List.inj_on_of_nodup_map Registry.builtin.distinct registered
        (show includeQuoting ∈ builtin by simp [builtin]) hid
  obtain ⟨s, token, hplace, suggestion, hsuggestion, offers⟩ := exists_offers quoting hremark
  refine ⟨visit, hvisit, s, token, hplace, suggestion, hsuggestion, offers, fun single => ?_⟩
  obtain ⟨origin, key?, scope, ⟨holder, last, held⟩, rfl⟩ :=
    (visits_made parsed visit hvisit).of_token? token
  obtain ⟨front, rest, hsource, hfront, exchanged⟩ := Outline.exists_retokens held single
  exact ⟨front, rest, holder, last, hsource, hfront, ⟨origin, held, rfl, rfl⟩, fun keeps =>
    keeps.holdsText offers held single exchanged⟩

/-- The message is put in quotes, and is read as it was. -/
theorem check_suggestions_message :
    let content := "- hosts: all\n  tasks:\n    - debug:\n        msg: hello\n"
    ∃ (linter : Linter) (playbook : Playbook) (report : Report),
      ofSettings {} = .ok linter ∧ Playbook.parse "site.yml" content = .ok playbook ∧
      linter.check "site.yml" content = .ok report ∧
      ∃ d ∈ report.diagnostics, d.rule = quoteStyle.id ∧ d.position = ⟨4, 14⟩ ∧
        d.suggestion? = some "\"hello\"" ∧ ∃ front rest holder last,
          content.toList = front ++ ("hello".toList ++ rest) ∧ placeBehind front = ⟨4, 14⟩ ∧
            Outline.HoldsText (front ++ ("\"hello\"".toList ++ rest)) holder last ⟨4, 14⟩ "hello" := by
  intro content
  let linter : Linter := ⟨{}, .builtin, by decide⟩
  have accepted : ofSettings {} = .ok linter := rfl
  have remarked : (Playbook.parse "site.yml" content).toOption.any (fun playbook =>
      (playbook.visits.any fun visit => quoteStyle.kinds.contains visit.part.kind &&
          (quoteStyle.remarks ({} : Settings).conventions visit).any fun remark =>
            decide (remark.position = ⟨4, 14⟩)) &&
        playbook.visits.all fun visit => visit.part.token?.all fun s =>
          decide (s.position = ⟨4, 14⟩ → s.style = .unquoted ∧ s.text = "hello" ∧ s.raw = "hello" ∧
            s.endLine = 4)) = true := by
    decide +kernel
  cases parsed : Playbook.parse "site.yml" content with
  | error problem =>
    rw [parsed] at remarked
    cases remarked
  | ok playbook =>
    rw [parsed] at remarked
    obtain ⟨hany, hall⟩ := Bool.and_eq_true_iff.mp remarked
    obtain ⟨visit, hvisit, hany⟩ := List.any_eq_true.mp hany
    obtain ⟨hkind, hany⟩ := Bool.and_eq_true_iff.mp hany
    obtain ⟨remark, hremark, hplace⟩ := List.any_eq_true.mp hany
    have hplace : remark.position = ⟨4, 14⟩ := of_decide_eq_true hplace
    obtain ⟨report, checked, suggestions⟩ := check_suggestions accepted parsed
    obtain ⟨_, checked', findings⟩ := exists_check accepted parsed
    obtain rfl := Except.ok.inj (checked.symm.trans checked')
    obtain ⟨hd, hrule⟩ := (findings quoteStyle (by simp [builtin]) ⟨by decide, by decide⟩ _).mpr
      ⟨visit, hvisit, hkind, remark, hremark, rfl⟩
    obtain ⟨visit', hvisit', s, token, hposition, suggestion, hsuggestion, offers, follow⟩ :=
      suggestions _ hd (.inl hrule)
    have hs : s.position = ⟨4, 14⟩ := hposition.symm.trans hplace
    have hscalar := List.all_eq_true.mp hall visit' hvisit'
    rw [token] at hscalar
    obtain ⟨style, text, raw, line⟩ := of_decide_eq_true hscalar hs
    obtain ⟨front, rest, holder, last, hsource, hfront, -, keeps⟩ := follow (by rw [line, hs])
    cases offers with
    | none quoted =>
      rw [style] at quoted
      cases quoted
    | quotes =>
      have verbatim : Outline.Verbatim s.text.toList := by
        rw [text]
        exact .plain (by decide) (by decide) (.plain (by decide) (by decide) (.plain (by decide)
          (by decide) (.plain (by decide) (by decide) (.plain (by decide) (by decide) .nil))))
      have kept := keeps (.quotes verbatim)
      rw [text, hs] at kept
      rw [text] at hsuggestion
      rw [raw] at hsource
      rw [hs] at hfront
      exact ⟨linter, playbook, report, accepted, rfl, checked, _, hd, hrule, hplace, hsuggestion,
        front, rest, holder, last, hsource, hfront, kept⟩

end Linter

end PlaybookStyle
