/-
What a suggestion for an expression keeps.

An expression is the marks at its ends, which trim the text around it, and its body
(`exists_marks`). A suggestion has all of the body but its outer blanks, and no marks: with
the blanks taken out of both it is the expression exactly if that has no marks.

* `jinjaSpacing_suggests` — so it is with all that the rule on expressions suggests.
-/

import Mathlib.Tactic.Conv
import PlaybookStyle.Proofs.Rule.Template

namespace PlaybookStyle.Rule

open Playbook Text

/-! ### Texts without their blanks -/

/-- A text without its blanks. -/
def solid (text : List Char) : List Char := text.filter (!isBlank ·)

@[simp] theorem solid_append (text more : List Char) : solid (text ++ more) = solid text ++ solid more :=
  List.filter_append text more

theorem solid_eq_nil {blanks : List Char} (h : blanks.all isBlank) : solid blanks = [] := by
  rw [solid, List.filter_eq_nil_iff]
  intro c hc
  simp [List.all_eq_true.mp h c hc]

/-- Only blanks are trimmed. -/
@[simp] theorem solid_trim (text : List Char) : solid (trim text) = solid text := by
  obtain ⟨cut, hcut, hall⟩ := exists_append_trimEndOf isBlank (trimStart text)
  have hstart : solid (trimStart text) = solid text := by
    conv_rhs => rw [← takeWhile_append_trimStart text]
    rw [solid_append, solid_eq_nil List.all_takeWhile, List.nil_append]
  rw [← hstart, ← hcut, solid_append, solid_eq_nil hall, List.append_nil, trim, trimEnd]

/-! ### Marks -/

/-- The mark that is dropped, if the text begins with one. -/
theorem exists_mark (text : List Char) : ∃ mark, text = mark ++ dropTrimMark text ∧
    solid mark = mark ∧ (mark = [] ↔ ∀ c ∈ text.head?, isTrimMark c = false) := by
  cases text with
  | nil => exact ⟨[], rfl, rfl, by simp⟩
  | cons c rest =>
    cases hmark : isTrimMark c with
    | false => exact ⟨[], by simp [dropTrimMark, hmark], rfl, by simp [hmark]⟩
    | true =>
      have hsolid : isBlank c = false := by
        rcases Bool.or_eq_true_iff.mp hmark with h | h
        · rw [of_decide_eq_true h]
          rfl
        · rw [of_decide_eq_true h]
          rfl
      exact ⟨[c], by simp [dropTrimMark, hmark], by simp [solid, hsolid], by simp [hmark]⟩

/-- An expression has its body between the marks at its ends. -/
theorem exists_marks (inner : List Char) : ∃ front back, inner = front ++ expressionBody inner ++ back ∧
    solid front = front ∧ solid back = back ∧ (front ++ back = [] ↔
      (∀ c ∈ inner.head?, isTrimMark c = false) ∧ ∀ c ∈ inner.getLast?, isTrimMark c = false) := by
  obtain ⟨front, hfront, solidFront, noFront⟩ := exists_mark inner
  obtain ⟨back, hback, solidBack, noBack⟩ := exists_mark (dropTrimMark inner).reverse
  have hbody : dropTrimMark inner = expressionBody inner ++ back.reverse := by
    rw [expressionBody, ← List.reverse_append, ← hback, List.reverse_reverse]
  refine ⟨front, back.reverse, ?_, solidFront, ?_, ?_⟩
  · rw [List.append_assoc, ← hbody, ← hfront]
  · rw [solid, List.filter_reverse, ← solid, solidBack]
  · rw [List.append_eq_nil_iff, List.reverse_eq_nil_iff, noFront]
    -- Where no mark is at the front, the last character is that of the whole.
    refine and_congr_right fun hnone => ?_
    rw [noFront.mpr hnone, List.nil_append] at hfront
    rw [noBack, ← hfront, List.head?_reverse]

/-! ### Suggestions -/

/-- A suggestion has the body of the expression and no mark. -/
theorem solid_respaced (inner : List Char) :
    solid (respaced inner) = solid (delimited (expressionBody inner)) := by
  have hspace : solid [' '] = [] := rfl
  rw [respaced, delimited, delimited, ← List.singleton_append]
  simp only [solid_append, solid_trim, hspace, List.nil_append, List.append_nil]

/-- A suggestion keeps an expression that neither begins nor ends with a mark. -/
theorem solid_respaced_eq_iff (inner : List Char) :
    solid (respaced inner) = solid (delimited inner) ↔
      (∀ c ∈ inner.head?, isTrimMark c = false) ∧ ∀ c ∈ inner.getLast?, isTrimMark c = false := by
  obtain ⟨front, back, hinner, solidFront, solidBack, hnone⟩ := exists_marks inner
  rw [solid_respaced, ← hnone, delimited, delimited]
  simp only [solid_append]
  rw [List.append_cancel_right_eq, List.append_cancel_left_eq]
  have hsolid : solid inner = front ++ solid (expressionBody inner) ++ back := by
    conv_lhs => rw [hinner]
    rw [solid_append, solid_append, solidFront, solidBack]
  rw [hsolid]
  constructor
  · intro heq
    have hlength := congrArg List.length heq
    simp only [List.length_append] at hlength
    rw [← List.length_eq_zero_iff, List.length_append]
    omega
  · intro h
    obtain ⟨rfl, rfl⟩ := List.append_eq_nil_iff.mp h
    rw [List.nil_append, List.append_nil]

/-- **A suggestion changes blanks and drops marks.** What the rule on expressions suggests
for one of a text has, but for blanks, the body of that between its delimiters; and it has
all of the expression exactly if that neither begins nor ends with a mark. -/
theorem jinjaSpacing_suggests {conventions : Conventions} {visit : Visit} {remark : Remark}
    (h : remark ∈ jinjaSpacing.remarks conventions visit) :
    ∃ s inner, visit.part = .scalar s ∧ inner ∈ expressions s.text.toList ∧
      remark = expressionRemark s.position inner ∧
      remark.suggestion? = some (String.ofList (respaced inner)) ∧
      solid (respaced inner) = solid (delimited (expressionBody inner)) ∧
      (solid (respaced inner) = solid (delimited inner) ↔
        (∀ c ∈ inner.head?, isTrimMark c = false) ∧ ∀ c ∈ inner.getLast?, isTrimMark c = false) := by
  obtain ⟨part, previous?⟩ := visit
  cases part with
  | scalar s =>
    obtain ⟨inner, hinner, rfl⟩ := List.mem_map.mp h
    exact ⟨s, inner, rfl, (List.mem_filter.mp hinner).1, rfl, rfl, solid_respaced inner,
      solid_respaced_eq_iff inner⟩
  | _ => cases h

/-- With a mark at either end, the suggestion lacks both. -/
theorem jinjaSpacing_suggests_dashes :
    let s : Scalar := { (default : Scalar) with text := "\x7b\x7b-a-\x7d\x7d" }
    ∃ remark ∈ jinjaSpacing.remarks default (.alone (.scalar s)),
      remark.suggestion? = some "\x7b\x7b a \x7d\x7d" ∧
      ∃ inner ∈ expressions s.text.toList, remark = expressionRemark s.position inner ∧
        solid (respaced inner) ≠ solid (delimited inner) := by
  intro s
  have hexpressions : expressions s.text.toList = ["-a-".toList] := by cbv
  have hremark : expressionRemark s.position "-a-".toList ∈
      jinjaSpacing.remarks default (.alone (.scalar s)) := by
    refine List.mem_map_of_mem (List.mem_filter.mpr ⟨?_, by decide⟩)
    rw [hexpressions]
    exact List.mem_singleton_self _
  obtain ⟨found, inner, hpart, hinner, heq, -, -, hiff⟩ := jinjaSpacing_suggests hremark
  obtain rfl := Part.scalar.inj hpart
  refine ⟨_, hremark, by decide, inner, hinner, heq, fun hsame => ?_⟩
  obtain rfl := List.mem_singleton.mp (hexpressions ▸ hinner)
  have hdash := (hiff.mp hsame).1 '-' rfl
  cases hdash

end PlaybookStyle.Rule
