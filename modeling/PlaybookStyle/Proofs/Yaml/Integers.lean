/-
Integers in plain text.

A text that has the form of an integer is one word, and as plain text it stands for
that integer while it fits 64 bits. A longer one is refused up to 128 bits; beyond
them it is a floating point number, or a string if no such number is near
(`ofText_of_isInteger`).
-/

import Mathlib.Data.List.TakeWhile
import Mathlib.Tactic.IntervalCases
import PlaybookStyle.Playbook.Kind
import PlaybookStyle.Proofs.Yaml.Word

namespace PlaybookStyle

namespace Yaml

/-! ### Digits -/

/-- One or more digits without a superfluous zero. -/
structure IsNumeral (digits : List Char) : Prop where
  filled : digits ≠ []
  all : ∀ c ∈ digits, c.isDigit = true
  lean : ∀ c rest, digits = '0' :: c :: rest → False

/-- A numeral, perhaps behind a dash. -/
def signed (negative : Bool) (digits : List Char) : List Char :=
  if negative then '-' :: digits else digits

theorem mem_wordChars_of_isDigit {c : Char} (h : c.isDigit = true) : c ∈ wordChars := by
  have hbounds : 48 ≤ c.toNat ∧ c.toNat ≤ 57 := by
    simp only [Char.isDigit, ge_iff_le, Bool.and_eq_true, decide_eq_true_eq,
      UInt32.le_iff_toNat_le] at h
    exact h
  obtain ⟨hlow, hhigh⟩ := hbounds
  rw [← Char.ofNat_toNat c]
  interval_cases c.toNat <;> decide

theorem digitValue?_of_isDigit {c : Char} (h : c.isDigit = true) :
    ∃ d, digitValue? c = some d ∧ d < 10 := by
  have hall : wordChars.all (fun c => !c.isDigit || (digitValue? c).any (· < 10)) = true := rfl
  have hc := List.all_eq_true.mp hall c (mem_wordChars_of_isDigit h)
  rw [h, Bool.not_true, Bool.false_or] at hc
  obtain ⟨d, hd, hlt⟩ := (Option.any_eq_true _ _).mp hc
  exact ⟨d, hd, of_decide_eq_true hlt⟩

theorem digits?_of_digits {digits : List Char} (filled : digits ≠ [])
    (h : ∀ c ∈ digits, c.isDigit = true) : ∃ n, digits? 10 digits = some n := by
  have hfold : ∀ (digits : List Char) (start : Nat), (∀ c ∈ digits, c.isDigit = true) →
      ∃ n, digits.foldl (fun acc c => do
        let n ← acc
        let d ← digitValue? c
        if d < 10 then some (n * 10 + d) else none) (some start) = some n := by
    intro digits
    induction digits with
    | nil => exact fun start _ => ⟨start, rfl⟩
    | cons c rest ih =>
      intro start h
      obtain ⟨hc, hrest⟩ := List.forall_mem_cons.mp h
      obtain ⟨d, hd, hlt⟩ := digitValue?_of_isDigit hc
      obtain ⟨n, hn⟩ := ih (start * 10 + d) hrest
      exact ⟨n, by simpa [hd, hlt] using hn⟩
  cases digits with
  | nil => exact absurd rfl filled
  | cons c rest => exact hfold (c :: rest) 0 h

namespace IsNumeral

variable {digits : List Char} {negative : Bool}

theorem head?_ne (h : IsNumeral digits) {c : Char} (hc : c.isDigit = false) :
    digits.head? ≠ some c := by
  intro hhead
  rw [h.all c (List.mem_of_mem_head? hhead)] at hc
  cases hc

theorem splitSign_signed (h : IsNumeral digits) (negative : Bool) :
    splitSign (signed negative digits) = (if negative then some '-' else none, digits) := by
  cases negative with
  | true => rfl
  | false =>
    unfold splitSign signed
    split
    · rename_i rest hplus
      exact absurd (congrArg List.head? hplus) (h.head?_ne rfl)
    · rename_i rest hminus
      exact absurd (congrArg List.head? hminus) (h.head?_ne rfl)
    · rfl

theorem hasLeadingZero_signed (h : IsNumeral digits) (negative : Bool) :
    hasLeadingZero (signed negative digits) = false := by
  rw [hasLeadingZero, h.splitSign_signed]
  dsimp only
  split
  · exact (h.lean _ _ rfl).elim
  · rfl

theorem magnitude?_eq (h : IsNumeral digits) : magnitude? digits = digits? 10 digits := by
  have hzero : hasLeadingZero digits = false := h.hasLeadingZero_signed false
  unfold magnitude?
  split
  · exact (h.lean _ _ rfl).elim
  · exact (h.lean _ _ rfl).elim
  · exact (h.lean _ _ rfl).elim
  · rw [hzero]
    rfl

/-- The number that the digits write. -/
theorem exists_value (h : IsNumeral digits) : ∃ n, digits? 10 digits = some n :=
  digits?_of_digits h.filled h.all

theorem integer?_signed (h : IsNumeral digits) {n : Nat} (value : digits? 10 digits = some n)
    (negative : Bool) :
    integer? (signed negative digits) = some (if negative then -(n : Int) else n) := by
  rw [integer?, h.splitSign_signed]
  cases negative with
  | true => simp [h.magnitude?_eq, value]
  | false => simp [h.magnitude?_eq, value]

theorem decimal?_eq (h : IsNumeral digits) {n : Nat} (value : digits? 10 digits = some n) :
    decimal? digits = some (n, 0) := by
  have htake : digits.takeWhile Char.isDigit = digits := by simpa using h.all
  have hdrop : digits.dropWhile Char.isDigit = [] := by simpa using h.all
  rw [decimal?]
  simp [htake, hdrop, value, exponent?]

/-- A numeral beyond the integers is read as the floating point number nearest to it. -/
theorem fraction?_signed (h : IsNumeral digits) {n : Nat} (value : digits? 10 digits = some n)
    (negative : Bool) :
    fraction? (signed negative digits) =
      (Decimal.Binary.ofDecimal n 0).map (.fraction negative) := by
  have hinfinity : digits ∉ [".inf", ".Inf", ".INF"].map String.toList := by
    intro hmem
    have hhead : ∀ special ∈ [".inf", ".Inf", ".INF"].map String.toList,
        special.head? = some '.' := by decide
    exact h.head?_ne rfl (hhead _ hmem)
  have hnan : signed negative digits ∉ [".nan", ".NaN", ".NAN"].map String.toList := by
    intro hmem
    have hhead : ∀ special ∈ [".nan", ".NaN", ".NAN"].map String.toList,
        special.head? = some '.' := by decide
    have hdot := hhead _ hmem
    cases negative with
    | true => cases hdot
    | false => exact h.head?_ne rfl hdot
  rw [fraction?, h.splitSign_signed]
  simp only [hinfinity, hnan, if_false, h.decimal?_eq value]
  cases negative <;> rfl

/-- What a numeral stands for: an integer, if it fits a width, or the floating point
number nearest to it, if there is one. -/
theorem ofText_signed (h : IsNumeral digits) {n : Nat} (value : digits? 10 digits = some n)
    {text : String} (htext : text.toList = signed negative digits) :
    Plain.ofText text =
      (classifyInteger (if negative then -(n : Int) else n)).getD
        (((Decimal.Binary.ofDecimal n 0).map (.number ∘ .fraction negative)).getD .string) := by
  have hstart : ∃ c, text.toList.head? = some c ∧ (c.isDigit || c == '-') = true := by
    rw [htext]
    cases negative with
    | true => exact ⟨'-', rfl, rfl⟩
    | false =>
      obtain ⟨c, rest, rfl⟩ := List.exists_cons_of_ne_nil h.filled
      exact ⟨c, rfl, by simp [h.all c List.mem_cons_self]⟩
  have hword : ∀ words : List String,
      (words.all fun word => !word.toList.head?.any fun c => c.isDigit || c == '-') = true →
        text ∉ words := by
    rintro words hall hmem
    obtain ⟨c, hc, hnumeral⟩ := hstart
    have hword := List.all_eq_true.mp hall text hmem
    rw [hc, Option.any_some, hnumeral] at hword
    cases hword
  have hempty : text.isEmpty = false := by
    rw [Bool.eq_false_iff, ne_eq, String.isEmpty_iff]
    rintro rfl
    obtain ⟨c, hc, -⟩ := hstart
    cases hc
  have hnull : isNull text = false := decide_eq_false (hword _ (by decide))
  have hboolean : boolean? text = none := by
    rw [boolean?, if_neg (hword _ (by decide)), if_neg (hword _ (by decide))]
  rw [Plain.ofText]
  simp only [hempty, hnull, hboolean, htext, h.integer?_signed value, h.hasLeadingZero_signed,
    h.fraction?_signed value, Option.bind_some, Bool.or_false, Bool.false_eq_true, if_false]
  cases classifyInteger (if negative then -(n : Int) else n) with
  | some plain => rfl
  | none =>
    cases Decimal.Binary.ofDecimal n 0 <;> rfl

/-- A numeral is one word. -/
theorem isWordText_signed (h : IsNumeral digits) (negative : Bool) :
    IsWordText (signed negative digits) where
  chars := by
    have hdigits : ∀ c ∈ digits, c ∈ wordChars := fun c hc => mem_wordChars_of_isDigit (h.all c hc)
    cases negative with
    | true => exact List.forall_mem_cons.mpr ⟨List.mem_cons_self, hdigits⟩
    | false => exact hdigits
  filled := by
    cases negative with
    | true => exact List.cons_ne_nil _ _
    | false => exact h.filled
  noDash := by
    cases negative with
    | true => exact fun hdash => h.filled (List.cons.inj hdash).2
    | false => exact fun hdash => h.head?_ne rfl (congrArg List.head? hdash)
  noMark := by
    have hdash : digits.head? ≠ some '-' := h.head?_ne rfl
    have hdot : digits.head? ≠ some '.' := h.head?_ne rfl
    cases negative with
    | true =>
      unfold isDocumentMark signed
      split
      · rename_i hmark
        exact absurd (congrArg List.head? (List.cons.inj hmark).2) hdash
      · rename_i hmark
        cases (List.cons.inj hmark).1
      · rfl
    | false =>
      unfold isDocumentMark signed
      split
      · rename_i hmark
        exact absurd (congrArg List.head? hmark) hdash
      · rename_i hmark
        exact absurd (congrArg List.head? hmark) hdot
      · rfl

end IsNumeral

end Yaml

namespace Playbook

open Yaml

/-! ### The kinds of integers -/

/-- A text in the form of an integer is a numeral, perhaps behind a dash. -/
theorem exists_numeral_of_isInteger {text : String} (h : isInteger text = true) :
    ∃ negative digits, IsNumeral digits ∧ text.toList = signed negative digits := by
  unfold isInteger at h
  dsimp only at h
  split at h
  · rename_i hdigits
    have hnumeral : IsNumeral ['0'] :=
      ⟨List.cons_ne_nil _ _, List.forall_mem_singleton.mpr rfl, by simp⟩
    split at hdigits
    · rename_i rest htext
      obtain rfl := hdigits
      exact ⟨true, _, hnumeral, htext⟩
    · exact ⟨false, _, hnumeral, hdigits⟩
  · rename_i c rest _ hdigits
    obtain ⟨hc, hall⟩ := Bool.and_eq_true_iff.mp h
    have hnumeral : IsNumeral (c :: rest) := by
      refine ⟨List.cons_ne_nil _ _, List.all_eq_true.mp hall, ?_⟩
      rintro d more heq
      simp [(List.cons.inj heq).1] at hc
    split at hdigits
    · rename_i rest htext
      obtain rfl := hdigits
      exact ⟨true, _, hnumeral, htext⟩
    · exact ⟨false, _, hnumeral, hdigits⟩
  · cases h

theorem plainKind_of_isWordText {text : String} (h : IsWordText text.toList) :
    plainKind text =
      match Plain.ofText text with
      | .number _ => .number
      | .null => .null
      | _ => .string := by
  rw [plainKind, Value.read_word h]
  cases Plain.ofText text <;> rfl

/-- An integer for which YAML has no number: it needs more than 64 bits and fits 128,
or it is so large that no floating point number is near. -/
def IsOutOfRange (n : Int) : Prop :=
  ¬(-2 ^ 63 ≤ n ∧ n < 2 ^ 64) ∧
    (-2 ^ 127 ≤ n ∧ n < 2 ^ 128 ∨ Decimal.Binary.ofDecimal n.natAbs 0 = none)

instance (n : Int) : Decidable (IsOutOfRange n) := inferInstanceAs (Decidable (_ ∧ _))

/-- Without quotes an integer is a number, unless it is out of range. -/
theorem plainKind_of_isInteger {text : String} (h : isInteger text = true) :
    ∃ n, integer? text.toList = some n ∧
      plainKind text = if IsOutOfRange n then .string else .number := by
  obtain ⟨negative, digits, hnumeral, htext⟩ := exists_numeral_of_isInteger h
  obtain ⟨magnitude, hvalue⟩ := hnumeral.exists_value
  have hword : IsWordText text.toList := htext ▸ hnumeral.isWordText_signed negative
  refine ⟨if negative then -(magnitude : Int) else magnitude, ?_, ?_⟩
  · rw [htext]
    exact hnumeral.integer?_signed hvalue negative
  · have habs : (if negative then -(magnitude : Int) else magnitude).natAbs = magnitude := by
      cases negative <;> simp
    rw [plainKind_of_isWordText hword, hnumeral.ofText_signed hvalue htext]
    generalize (if negative then -(magnitude : Int) else magnitude) = n at habs
    rw [← habs]
    by_cases hshort : -2 ^ 63 ≤ n ∧ n < 2 ^ 64
    · have hclass : classifyInteger n = some (.number (.integer n)) := if_pos hshort
      rw [hclass, if_neg fun h : IsOutOfRange n => h.1 hshort]
      rfl
    · by_cases hlong : -2 ^ 127 ≤ n ∧ n < 2 ^ 128
      · have hclass : classifyInteger n = some (.oversized n) :=
          (if_neg hshort).trans (if_pos hlong)
        rw [hclass, if_pos (show IsOutOfRange n from ⟨hshort, .inl hlong⟩)]
        rfl
      · have hclass : classifyInteger n = none := (if_neg hshort).trans (if_neg hlong)
        rw [hclass]
        cases hnear : Decimal.Binary.ofDecimal n.natAbs 0 with
        | none =>
          rw [if_pos (show IsOutOfRange n from ⟨hshort, .inr hnear⟩)]
          rfl
        | some b =>
          rw [if_neg]
          · rfl
          · rintro ⟨-, hfits | hnone⟩
            · exact hlong hfits
            · rw [hnear] at hnone
              cases hnone

end Playbook

end PlaybookStyle
