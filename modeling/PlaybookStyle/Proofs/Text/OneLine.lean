/-
Texts on one line.

A text put together from texts that stay on one line stays on one line. So do numbers, and
quoted text, which escapes the line feeds of what it quotes (`isLine_quoted`).
-/

import PlaybookStyle.Text.Lines
import PlaybookStyle.Text.Quoted

namespace PlaybookStyle.Text

/-- The text has no line feed. -/
def IsLine (text : String) : Prop := '\n' ∉ text.toList

instance (text : String) : Decidable (IsLine text) := inferInstanceAs (Decidable (_ ∉ _))

variable {text before after : String}

@[simp] theorem isLine_append : IsLine (before ++ after) ↔ IsLine before ∧ IsLine after := by
  simp only [IsLine, String.toList_append, List.mem_append, not_or]

@[simp] theorem isLine_ofList {chars : List Char} : IsLine (String.ofList chars) ↔ '\n' ∉ chars := by
  rw [IsLine, String.toList_ofList]

/-- A text whose characters are at hand, as those of a literal are. -/
theorem IsLine.lit {chars : List Char} (h : '\n' ∉ chars) : IsLine (String.ofList chars) :=
  isLine_ofList.mpr h

theorem IsLine.append (hbefore : IsLine before) (hafter : IsLine after) : IsLine (before ++ after) :=
  isLine_append.mpr ⟨hbefore, hafter⟩

theorem isLine_append_left (hafter : IsLine after) : IsLine (text ++ after) ↔ IsLine text :=
  isLine_append.trans (and_iff_left hafter)

/-- A text between two others that stay on one line. -/
theorem isLine_between (hbefore : IsLine before) (hafter : IsLine after) :
    IsLine (before ++ text ++ after) ↔ IsLine text :=
  (isLine_append_left hafter).trans (isLine_append.trans (and_iff_right hbefore))

theorem digitChar_ne_newline (n : Nat) : Nat.digitChar n ≠ '\n' := by
  by_cases h : n < 16
  · have small : ∀ n < 16, Nat.digitChar n ≠ '\n' := by decide
    exact small n h
  · have large : Nat.digitChar n = '*' := by
      unfold Nat.digitChar
      repeat rw [if_neg (by omega)]
    rw [large]
    decide

/-- The digits of a number, to whatever base. -/
theorem newline_not_mem_toDigits {base : Nat} (hbase : 1 < base) (n : Nat) :
    '\n' ∉ Nat.toDigits base n := by
  induction n using Nat.strongRecOn with
  | ind n ih =>
    rw [Nat.toDigits_eq_if hbase]
    split
    · rw [List.mem_singleton]
      exact (digitChar_ne_newline n).symm
    · rename_i hlarge
      rw [List.mem_append, List.mem_singleton, not_or]
      exact ⟨ih _ (Nat.div_lt_self (by omega) hbase), (digitChar_ne_newline _).symm⟩

@[simp] theorem isLine_nat (n : Nat) : IsLine n.repr := by
  rw [IsLine, Nat.toList_repr]
  exact newline_not_mem_toDigits (by decide) n

@[simp] theorem isLine_int (n : Int) : IsLine n.repr := by
  cases n with
  | ofNat n => exact isLine_nat n
  | negSucc n =>
    have hnegative : (Int.negSucc n).repr = "-" ++ (n + 1).repr := rfl
    rw [hnegative]
    exact .append (.lit (by decide)) (isLine_nat _)

@[simp] theorem isLine_bool (b : Bool) : IsLine (toString b) := by
  cases b <;> exact .lit (by decide)

/-! ### Quoted text -/

theorem newline_not_mem_quoteChar (c : Char) : '\n' ∉ quoteChar c := by
  unfold quoteChar
  split
  all_goals first | decide | skip
  rename_i hbreak _ _ _
  split
  · simp only [List.mem_append, not_or]
    exact ⟨⟨by decide, newline_not_mem_toDigits (by decide) _⟩, by decide⟩
  · rw [List.mem_singleton]
    exact fun h => hbreak h.symm

/-- Quoted text stays on one line, whatever it quotes. -/
theorem isLine_quoted (text : String) : IsLine (quoted text) := by
  rw [quoted, isLine_ofList]
  simp only [List.mem_cons, List.mem_append, List.mem_flatMap, List.not_mem_nil, or_false, not_or,
    not_exists, not_and, List.cons_append]
  exact ⟨by decide, fun c _ => newline_not_mem_quoteChar c, by decide⟩

end PlaybookStyle.Text
