/-
Rules and the part before a part.

Only the two rules on blank lines look at the part before a part: without one they
have nothing to say, and with one they speak of the place where the part begins
(`Rule.IsSpacing.remark`). So if a block gets another block before it, what is found
at it stays, apart from findings of these two at its first place
(`Registry.findingsAt_with_previous`); and nothing else changes on the walk over it
and the blocks behind it (`Registry.findings_with_previous`).
-/

import PlaybookStyle.Proofs.Rule.Moving

namespace PlaybookStyle

open Playbook

/-- A finding of one of the rules on blank lines about the block whose dash stands on
a line, at the margin. -/
def Diagnostic.atBlock (line : Nat) (d : Diagnostic) : Bool :=
  (d.rule == Rule.blockSpacing.id || d.rule == Rule.includeSpacing.id) && d.position == ⟨line, 1⟩

namespace Rule

variable {rule : Rule} {conventions : Conventions} {part : Part} {visit : Visit}

/-- A rule on blank lines. -/
def IsSpacing (rule : Rule) : Prop := rule = blockSpacing ∨ rule = includeSpacing

theorem IsSpacing.remarks_alone (h : rule.IsSpacing) : rule.remarks conventions (.alone part) = [] := by
  rcases h with rfl | rfl
  · rfl
  · cases part <;> rfl

/-- A rule on blank lines speaks of the place where a part begins that has another
before it. -/
theorem IsSpacing.remark (h : rule.IsSpacing) {remark : Remark}
    (hremark : remark ∈ rule.remarks conventions visit) :
    remark.position = visit.part.position ∧ visit.previous? ≠ none := by
  obtain ⟨part, previous?⟩ := visit
  rcases h with rfl | rfl
  · obtain ⟨previous, hprevious, hremark⟩ :=
      Option.bind_eq_some_iff.mp (Option.mem_toList.mp hremark)
    refine ⟨?_, fun hnone => nomatch hnone.symm.trans hprevious⟩
    unfold blockRemark? at hremark
    split at hremark
    · rename_i what position hseparated
      cases hremark
      exact separated?_line hseparated
    · cases hremark
  · simp only [includeSpacing] at hremark
    split at hremark
    · rename_i i previous
      refine ⟨?_, fun hnone => by cases hnone⟩
      have hremark := Option.mem_toList.mp hremark
      unfold includeRemark? at hremark
      split at hremark <;> cases hremark <;> rfl
    · cases hremark

/-- No other rule looks at the part before a part. -/
theorem isSpacing_or_of_mem_builtin (h : rule ∈ builtin) :
    rule.IsSpacing ∨ (rule.id ≠ blockSpacing.id ∧ rule.id ≠ includeSpacing.id) ∧
      ∀ conventions part previous?,
        rule.remarks conventions ⟨part, previous?⟩ = rule.remarks conventions (.alone part) := by
  by_cases hspacing : rule.IsSpacing
  · exact .inl hspacing
  · obtain ⟨hblock, hinclude⟩ := not_or.mp hspacing
    have hothers : rule ∈ [quoteStyle, booleanLiteral, keySpacing, mapSyntax, sudoBecome,
        hostBlockOrder, taskFieldOrder, includeQuoting, indentation, variableNaming, roleNaming,
        jinjaSpacing, fileExtension, vaultFileExtension] := by
      simpa [builtin, hblock, hinclude] using h
    simp only [List.mem_cons, List.not_mem_nil, or_false] at hothers
    refine .inr ?_
    rcases hothers with rfl | rfl | rfl | rfl | rfl | rfl | rfl | rfl | rfl | rfl | rfl | rfl |
      rfl | rfl
    all_goals exact ⟨by decide, fun _ _ _ => rfl⟩

end Rule

namespace Registry

variable {settings : Settings} {path : String} {line : Nat}

/-- What is found at a part behind the line says nothing about the block on it. -/
theorem not_atBlock_of_behind {visit : Visit} (behind : visit.Behind line) {d : Diagnostic}
    (h : d ∈ builtin.findingsAt settings path visit) : d.atBlock line = false := by
  obtain ⟨rule, hrule, remark, hremark, rfl⟩ := exists_remark_of_mem_findingsAt h
  refine Bool.eq_false_iff.mpr fun hat => ?_
  simp only [Diagnostic.atBlock, Rule.finding, Bool.and_eq_true, Bool.or_eq_true, beq_iff_eq] at hat
  rcases Rule.isSpacing_or_of_mem_builtin (List.mem_filter.mp hrule).1 with hspacing | ⟨hother, -⟩
  · obtain ⟨hposition, hprevious⟩ := hspacing.remark hremark
    have hbehind := behind hprevious
    rw [← hposition, hat.2] at hbehind
    exact Nat.lt_irrefl _ hbehind
  · exact hat.1.elim hother.1 hother.2

/-- **A block that gets another block before it.** What is found at it stays, apart
from what the rules on blank lines find at its first place. -/
theorem findingsAt_with_previous {part : Part} (hpart : part.position = ⟨line, 1⟩)
    (previous? : Option Part) :
    (builtin.findingsAt settings path ⟨part, previous?⟩).filter (!·.atBlock line) =
      builtin.findingsAt settings path (.alone part) := by
  unfold findingsAt
  rw [List.filter_flatMap]
  refine List.flatMap_congr fun rule hrule => ?_
  unfold Rule.findings
  rcases Rule.isSpacing_or_of_mem_builtin (List.mem_filter.mp hrule).1 with hspacing | ⟨hother, heq⟩
  · rw [hspacing.remarks_alone]
    split
    · rw [List.map_nil, List.filter_nil, List.filter_eq_nil_iff]
      intro d hd
      obtain ⟨remark, hremark, rfl⟩ := List.mem_map.mp (List.mem_filter.mp hd).1
      have hposition := (hspacing.remark hremark).1.trans hpart
      rcases hspacing with rfl | rfl <;> simp [Diagnostic.atBlock, Rule.finding, hposition]
    · rfl
  · rw [heq]
    split
    · rw [List.filter_eq_self]
      intro d hd
      obtain ⟨remark, hremark, rfl⟩ := List.mem_map.mp (List.mem_filter.mp hd).1
      simp [Diagnostic.atBlock, Rule.finding, hother]
    · rfl

/-- **Blocks that get another part before them.** What is found at them and in them
stays, apart from what the rules on blank lines find at the place of the first. -/
theorem findings_with_previous {blocks : List Block}
    (hfirst : ∀ block ∈ blocks.head?, block.part.position = ⟨line, 1⟩)
    (behind : ∀ visit ∈ visitsOfBlocks none blocks, visit.Behind line) (previous? : Option Part) :
    ((visitsOfBlocks previous? blocks).flatMap (builtin.findingsAt settings path)).filter
        (!·.atBlock line) =
      (visitsOfBlocks none blocks).flatMap (builtin.findingsAt settings path) := by
  cases blocks with
  | nil => rfl
  | cons block rest =>
    rw [visitsOfBlocks, List.forall_mem_cons] at behind
    have hrest : ∀ d ∈ (block.visits ++ visitsOfBlocks (some block.part) rest).flatMap
        (builtin.findingsAt settings path), (!d.atBlock line) = true := by
      intro d hd
      obtain ⟨visit, hvisit, hd⟩ := List.mem_flatMap.mp hd
      rw [not_atBlock_of_behind (behind.2 visit hvisit) hd, Bool.not_false]
    rw [visitsOfBlocks, visitsOfBlocks, List.flatMap_cons, List.flatMap_cons, List.filter_append,
      List.filter_eq_self.mpr hrest, findingsAt_with_previous (hfirst block rfl)]
    rfl

end Registry

end PlaybookStyle
