/-
The rule on indentation, line by line.

The rule looks at the numbered lines of a document, apart from verbatim ones
(`indentRemarks`). What it says of a line does not depend on where the line
stands, so its remarks on some lines move with these (`indentRemarks_moved`).
-/

import PlaybookStyle.Proofs.Rule.Moving

namespace PlaybookStyle

open Text Playbook

namespace Rule

/-- What the rule on indentation says about lines, apart from some. -/
def indentRemarks (skip : Nat → Bool) (numbered : List (Nat × List Char)) : List Remark :=
  numbered.filterMap fun (number, line) => if skip number then none else indentRemark? number line

theorem indentRemark?_moved (f : Nat → Nat) (number : Nat) (line : List Char) :
    indentRemark? (f number) line = (indentRemark? number line).map (Remark.moved f) := by
  rw [indentRemark?_eq, indentRemark?_eq]
  repeat' split
  all_goals rfl

section Remarks

variable {f : Nat → Nat} {skip skip' : Nat → Bool}

theorem numbered_append (number : Nat) (a b : List (List Char)) :
    (List.range' number (a ++ b).length).zip (a ++ b) =
      (List.range' number a.length).zip a ++
        (List.range' (number + a.length) b.length).zip b := by
  rw [List.length_append, ← List.range'_append_1, List.zip_append (List.length_range' ..)]

theorem indentRemarks_append (a b : List (Nat × List Char)) :
    indentRemarks skip (a ++ b) = indentRemarks skip a ++ indentRemarks skip b :=
  List.filterMap_append

theorem indentRemarks_cons_of_none {number : Nat} {line : List Char}
    (h : indentRemark? number line = none) (rest : List (Nat × List Char)) :
    indentRemarks skip ((number, line) :: rest) = indentRemarks skip rest := by
  unfold indentRemarks
  refine List.filterMap_cons_none ?_
  dsimp only
  rw [h]
  exact ite_self none

/-- The rule says the same about lines wherever they stand. -/
theorem indentRemarks_moved {low high : Nat} (lines : List (List Char)) (hlow : 0 < low)
    (hskip : ∀ n, 0 < n → skip' (f n) = skip n) (h : ∀ i < lines.length, f (low + i) = high + i) :
    indentRemarks skip' ((List.range' high lines.length).zip lines) =
      (indentRemarks skip ((List.range' low lines.length).zip lines)).map (Remark.moved f) := by
  induction lines generalizing low high with
  | nil => rfl
  | cons line rest ih =>
    have hfirst : f low = high := h 0 (Nat.succ_pos _)
    have hrest : indentRemarks skip' ((List.range' (high + 1) rest.length).zip rest) =
        (indentRemarks skip ((List.range' (low + 1) rest.length).zip rest)).map
          (Remark.moved f) := by
      refine ih (Nat.succ_pos _) fun i hi => ?_
      rw [Nat.add_assoc, Nat.add_assoc, Nat.add_comm 1]
      exact h (i + 1) (Nat.succ_lt_succ hi)
    unfold indentRemarks at hrest ⊢
    rw [List.length_cons, List.range'_succ, List.range'_succ, List.zip_cons_cons,
      List.zip_cons_cons, List.filterMap_cons, List.filterMap_cons, hrest]
    dsimp only
    rw [← hfirst, hskip low hlow, indentRemark?_moved]
    cases skip low with
    | true => rfl
    | false => cases indentRemark? low line <;> rfl

end Remarks

theorem rulesFor_document :
    Registry.builtin.rulesFor .document =
      [Rule.indentation, Rule.fileExtension, Rule.vaultFileExtension] := rfl

theorem indentation_remarks {conventions : Conventions} (encrypted : p.encrypted = false) :
    Rule.indentation.remarks conventions ⟨.document p, none⟩ =
      Rule.indentRemarks p.isVerbatim p.source.numbered := by
  simp only [Rule.indentation, encrypted]
  rfl

end Rule

end PlaybookStyle
