/-
Which names have a form in lower-case words.

In lower-case words each character of a name is written as one character (`snakeChar`), with
an underscore before it where it is a capital that begins a word. The character before
decides on that underscore alone, and an underscore may stand anywhere in the name of a
variable: so what a suggestion consists of and how it begins is read off the name, one
character at a time.

* `isVariableName_snakeCase_iff` — the names whose lower-case words name a variable.
* `snakeCase_eq_self_iff` — the names that are lower-case words already.
* `snakeCase_accepted_iff` — what the rule on variables says of its own suggestions.
-/

import Mathlib.Tactic.MkIffOfInductiveProp
import PlaybookStyle.Rule.Identifier
import PlaybookStyle.Rule.Template

namespace PlaybookStyle.Text

/-! ### Parts of a text -/

theorem hasPart_iff_infix (part text : List Char) : hasPart part text = true ↔ part <:+: text := by
  induction text with
  | nil => simp [hasPart, splitAround]
  | cons c rest ih =>
    rw [List.infix_cons_iff, ← ih, hasPart, hasPart, splitAround, ← List.isPrefixOf_iff_prefix]
    split
    · rename_i hhere
      simp [hhere]
    · rename_i hhere
      simp [hhere]

end PlaybookStyle.Text

namespace PlaybookStyle.Rule

open Text

/-! ### Characters -/

/-- A character as it is written in lower-case words joined by underscores. -/
def snakeChar (c : Char) : Char :=
  if c.isUpper then c.toLower else if c = '-' || c = ' ' || c = '.' then '_' else c

/-- A capital behind a small letter or digit begins a word. -/
def beginsWord (previous? : Option Char) (c : Char) : Bool :=
  c.isUpper && previous?.any fun p => p.isLower || p.isDigit

/-- A character that is written as one of those of names. -/
def isSpellableChar (c : Char) : Bool :=
  c.isAlphanum || c = '_' || c = '-' || c = '.' || c = ' '

/-- A character is a capital, a joint between words, or neither. -/
theorem snakeChar_cases (c : Char) :
    (c.isUpper = true ∧ snakeChar c = c.toLower) ∨
      ((c = '-' ∨ c = ' ' ∨ c = '.') ∧ snakeChar c = '_') ∨
      ((c.isUpper = false ∧ c ≠ '-' ∧ c ≠ ' ' ∧ c ≠ '.') ∧ snakeChar c = c) := by
  unfold snakeChar
  split
  · rename_i hupper
    exact .inl ⟨hupper, rfl⟩
  · rename_i hupper
    split
    · rename_i hjoint
      exact .inr (.inl ⟨by simpa [or_assoc] using hjoint, rfl⟩)
    · rename_i hjoint
      refine .inr (.inr ⟨⟨Bool.eq_false_iff.mpr hupper, ?_⟩, rfl⟩)
      simpa [and_assoc] using hjoint

theorem isUpper_iff {c : Char} : c.isUpper = true ↔ 65 ≤ c.val.toNat ∧ c.val.toNat ≤ 90 := by
  delta Char.isUpper
  simp only [decide_eq_true_eq, ge_iff_le, UInt32.le_iff_toNat_le, Char.reduceVal,
    UInt32.reduceToNat]

theorem isLower_iff {c : Char} : c.isLower = true ↔ 97 ≤ c.val.toNat ∧ c.val.toNat ≤ 122 := by
  delta Char.isLower
  simp only [Bool.and_eq_true, decide_eq_true_eq, ge_iff_le, UInt32.le_iff_toNat_le, Char.reduceVal,
    UInt32.reduceToNat]

theorem isDigit_iff {c : Char} : c.isDigit = true ↔ 48 ≤ c.val.toNat ∧ c.val.toNat ≤ 57 := by
  delta Char.isDigit
  simp only [Bool.and_eq_true, decide_eq_true_eq, ge_iff_le, UInt32.le_iff_toNat_le, Char.reduceVal,
    UInt32.reduceToNat]

theorem isAlpha_eq (c : Char) : c.isAlpha = (c.isUpper || c.isLower) := rfl

theorem isDigit_eq_false_of_isAlpha {c : Char} (h : c.isAlpha = true) : c.isDigit = false := by
  rw [Bool.eq_false_iff]
  intro hdigit
  rw [isAlpha_eq, Bool.or_eq_true, isUpper_iff, isLower_iff] at h
  rw [isDigit_iff] at hdigit
  omega

theorem isAlpha_of_isUpper {c : Char} (h : c.isUpper = true) : c.isAlpha = true := by
  rw [isAlpha_eq, h, Bool.true_or]

theorem isUpper_eq_false_of_isLower {c : Char} (h : c.isLower = true) : c.isUpper = false := by
  rw [Bool.eq_false_iff]
  intro hupper
  rw [isLower_iff] at h
  rw [isUpper_iff] at hupper
  omega

/-- The small form of a capital is a small letter. -/
theorem isLower_toLower_of_isUpper {c : Char} (h : c.isUpper = true) : c.toLower.isLower = true := by
  have hval : c.toLower.val = c.val + 32 := by
    have hcapital : c.val ≥ 'A'.val ∧ c.val ≤ 'Z'.val := by
      simpa only [ge_iff_le, UInt32.le_iff_toNat_le, Char.reduceVal, UInt32.reduceToNat]
        using isUpper_iff.mp h
    delta Char.toLower
    rw [dif_pos hcapital]
    rfl
  rw [isUpper_iff] at h
  -- The code of a capital is far from the largest one.
  rw [isLower_iff, hval]
  simp only [UInt32.toNat_add, UInt32.reduceToNat]
  omega

theorem isDigit_snakeChar (c : Char) : (snakeChar c).isDigit = c.isDigit := by
  obtain ⟨hupper, heq⟩ | ⟨rfl | rfl | rfl, heq⟩ | ⟨-, heq⟩ := snakeChar_cases c
  · have halpha := isAlpha_of_isUpper hupper
    rw [heq, isDigit_eq_false_of_isAlpha halpha, isDigit_eq_false_of_isAlpha]
    rw [isAlpha_eq, isLower_toLower_of_isUpper hupper, Bool.or_true]
  all_goals rw [heq]
  all_goals rfl

theorem isNameChar_snakeChar (c : Char) : isNameChar (snakeChar c) = isSpellableChar c := by
  obtain ⟨hupper, heq⟩ | ⟨rfl | rfl | rfl, heq⟩ | ⟨⟨hupper, hjoints⟩, heq⟩ := snakeChar_cases c
  · rw [heq, isNameChar, isLower_toLower_of_isUpper hupper]
    simp [isSpellableChar, Char.isAlphanum, isAlpha_eq, hupper]
  · rw [heq]
    rfl
  · rw [heq]
    rfl
  · rw [heq]
    rfl
  · rw [heq]
    simp [isNameChar, isSpellableChar, Char.isAlphanum, isAlpha_eq, hupper, hjoints]

theorem snakeChar_eq_self_iff (c : Char) :
    snakeChar c = c ↔ c.isUpper = false ∧ c ≠ '-' ∧ c ≠ ' ' ∧ c ≠ '.' := by
  obtain ⟨hupper, heq⟩ | ⟨rfl | rfl | rfl, -⟩ | ⟨hkept, heq⟩ := snakeChar_cases c
  · rw [heq]
    constructor
    · intro hsame
      have hlower := isUpper_eq_false_of_isLower (isLower_toLower_of_isUpper hupper)
      rw [hsame, hupper] at hlower
      cases hlower
    · intro h
      rw [h.1] at hupper
      cases hupper
  · decide
  · decide
  · decide
  · exact ⟨fun _ => hkept, fun _ => heq⟩

theorem snakeChar_snakeChar (c : Char) : snakeChar (snakeChar c) = snakeChar c := by
  obtain ⟨hupper, heq⟩ | ⟨-, heq⟩ | ⟨-, heq⟩ := snakeChar_cases c
  · rw [heq, snakeChar_eq_self_iff]
    have hlower := isLower_toLower_of_isUpper hupper
    refine ⟨isUpper_eq_false_of_isLower hlower, ?_, ?_, ?_⟩
    all_goals
      intro hjoint
      rw [hjoint] at hlower
      cases hlower
  · rw [heq]
    rfl
  · rw [heq, heq]

/-- The characters of names are written as they are. -/
theorem snakeChar_of_isNameChar {c : Char} (h : isNameChar c = true) : snakeChar c = c := by
  obtain ⟨hupper, -⟩ | ⟨rfl | rfl | rfl, -⟩ | ⟨-, heq⟩ := snakeChar_cases c
  · exfalso
    simp only [isNameChar, Bool.or_eq_true, decide_eq_true_eq] at h
    obtain (hlower | hdigit) | rfl := h
    · exact absurd (hupper.symm.trans (isUpper_eq_false_of_isLower hlower)) (by decide)
    · exact Bool.eq_false_iff.mp (isDigit_eq_false_of_isAlpha (isAlpha_of_isUpper hupper)) hdigit
    · cases hupper
  · cases h
  · cases h
  · cases h
  · exact heq

/-! ### Names in lower-case words -/

/-- Each character is written as one, those that begin a word with an underscore before it. -/
theorem snakeCaseAfter_cons (previous? : Option Char) (c : Char) (rest : List Char) :
    snakeCaseAfter previous? (c :: rest) =
      (if beginsWord previous? c then ['_'] else []) ++
        snakeChar c :: snakeCaseAfter (some c) rest := by
  rw [snakeCaseAfter, beginsWord, snakeChar]
  cases c.isUpper with
  | true => cases previous?.any fun p => p.isLower || p.isDigit <;> simp
  | false => by_cases hjoint : c = '-' ∨ c = ' ' ∨ c = '.' <;> simp [hjoint, or_assoc]

/-- Nothing is before the first character, so a name begins with that. -/
theorem head?_snakeCase (name : List Char) : (snakeCase name).head? = name.head?.map snakeChar := by
  cases name with
  | nil => rfl
  | cons c rest =>
    have hbegins : beginsWord none c = false := Bool.and_false _
    rw [snakeCase, snakeCaseAfter_cons, hbegins]
    rfl

theorem all_isNameChar_snakeCaseAfter (previous? : Option Char) (name : List Char) :
    (snakeCaseAfter previous? name).all isNameChar = name.all isSpellableChar := by
  induction name generalizing previous? with
  | nil => rfl
  | cons c rest ih =>
    have hjoined : (if beginsWord previous? c then ['_'] else []).all isNameChar = true := by
      split <;> rfl
    rw [snakeCaseAfter_cons, List.all_append, hjoined, List.all_cons, ih, isNameChar_snakeChar,
      Bool.true_and, List.all_cons]

/-- What is written is written as it is when it is written again. -/
theorem snakeChar_of_mem_snakeCaseAfter {previous? : Option Char} {name : List Char} {d : Char}
    (h : d ∈ snakeCaseAfter previous? name) : snakeChar d = d := by
  induction name generalizing previous? with
  | nil => cases h
  | cons c rest ih =>
    rw [snakeCaseAfter_cons, List.mem_append, List.mem_cons] at h
    obtain hjoined | rfl | hrest := h
    · split at hjoined
      · rw [List.mem_singleton.mp hjoined]
        rfl
      · cases hjoined
    · exact snakeChar_snakeChar c
    · exact ih hrest

/-- Without capitals no word begins, so no underscore is put in. -/
theorem snakeCaseAfter_of_forall {name : List Char} (h : ∀ c ∈ name, snakeChar c = c)
    (previous? : Option Char) : snakeCaseAfter previous? name = name := by
  induction name generalizing previous? with
  | nil => rfl
  | cons c rest ih =>
    obtain ⟨hc, hrest⟩ := List.forall_mem_cons.mp h
    have hbegins : beginsWord previous? c = false := by
      rw [beginsWord, ((snakeChar_eq_self_iff c).mp hc).1, Bool.false_and]
    rw [snakeCaseAfter_cons, hbegins, hc, ih hrest]
    rfl

theorem snakeCase_eq_self_iff (name : List Char) :
    snakeCase name = name ↔ ∀ c ∈ name, snakeChar c = c := by
  constructor
  · intro hsame c hc
    rw [← hsame] at hc
    exact snakeChar_of_mem_snakeCaseAfter hc
  · intro h
    exact snakeCaseAfter_of_forall h none

theorem snakeCase_snakeCase (name : List Char) : snakeCase (snakeCase name) = snakeCase name := by
  rw [snakeCase_eq_self_iff]
  intro c hc
  exact snakeChar_of_mem_snakeCaseAfter hc

/-! ### Names of variables -/

/-- A name that has a form in lower-case words: ASCII letters and digits, underscores, dashes,
dots and spaces, one at least, and no digit first. -/
@[mk_iff]
structure IsSpellable (name : List Char) : Prop where
  ne_nil : name ≠ []
  chars : name.all isSpellableChar = true
  start : name.head?.any Char.isDigit = false

instance (name : List Char) : Decidable (IsSpellable name) :=
  decidable_of_iff' _ (isSpellable_iff name)

/-- A name of a variable begins with a character of names that is no digit. -/
theorem isLower_or_underscore_iff (c : Char) :
    (c.isLower || c = '_') = true ↔ isNameChar c = true ∧ c.isDigit = false := by
  rw [isNameChar]
  constructor
  · intro h
    obtain hlower | rfl := by simpa using h
    · have halpha : c.isAlpha = true := by rw [isAlpha_eq, hlower, Bool.or_true]
      exact ⟨by simp [hlower], isDigit_eq_false_of_isAlpha halpha⟩
    · decide
  · rintro ⟨hname, hdigit⟩
    simpa [hdigit] using hname

theorem isVariableName_iff (name : List Char) : isVariableName name = true ↔
    name ≠ [] ∧ name.all isNameChar = true ∧ name.head?.any Char.isDigit = false := by
  cases name with
  | nil => exact iff_of_false nofun fun h => h.1 rfl
  | cons c rest =>
    rw [isVariableName, Bool.and_eq_true, isLower_or_underscore_iff, List.all_cons,
      Bool.and_eq_true, List.head?_cons, Option.any_some,
      and_iff_right (List.cons_ne_nil c rest), and_right_comm]

/-- Lower-case words begin as the name does, and all their characters may stand in a name
exactly if those of the name are spellable. -/
theorem isVariableName_snakeCase_iff (name : List Char) :
    isVariableName (snakeCase name) = true ↔ IsSpellable name := by
  have hnil : snakeCase name = [] ↔ name = [] := by
    rw [← List.head?_eq_none_iff, head?_snakeCase, Option.map_eq_none_iff, List.head?_eq_none_iff]
  have hchars : (snakeCase name).all isNameChar = name.all isSpellableChar :=
    all_isNameChar_snakeCaseAfter none name
  have hstart : (snakeCase name).head?.any Char.isDigit = name.head?.any Char.isDigit := by
    rw [head?_snakeCase, Option.any_map]
    congr
    funext c
    exact isDigit_snakeChar c
  rw [isVariableName_iff, Ne, hnil, hchars, hstart, isSpellable_iff]

theorem snakeCase_of_isVariableName {name : List Char} (h : isVariableName name = true) :
    snakeCase name = name := by
  have hchars : name.all isNameChar = true := ((isVariableName_iff name).mp h).2.1
  rw [snakeCase_eq_self_iff]
  intro c hc
  exact snakeChar_of_isNameChar (List.all_eq_true.mp hchars c hc)

/-! ### Suggestions -/

theorem snakeChar_eq_brace_iff (c : Char) : snakeChar c = '\x7b' ↔ c = '\x7b' := by
  obtain ⟨hupper, heq⟩ | ⟨rfl | rfl | rfl, heq⟩ | ⟨-, heq⟩ := snakeChar_cases c
  · rw [heq]
    have hlower := isLower_toLower_of_isUpper hupper
    constructor
    · intro hbrace
      rw [hbrace] at hlower
      cases hlower
    · rintro rfl
      cases hupper
  all_goals rw [heq]
  all_goals decide

theorem openDelimiter_prefix_cons_iff (c : Char) (rest : List Char) :
    openDelimiter <+: c :: rest ↔ c = '\x7b' ∧ rest.head? = some '\x7b' := by
  have hpair : openDelimiter = ['\x7b', '\x7b'] := rfl
  rw [hpair, List.cons_prefix_cons, List.singleton_prefix_iff_head?_eq_some, eq_comm]

theorem head?_snakeCaseAfter_brace_iff (previous? : Option Char) (name : List Char) :
    (snakeCaseAfter previous? name).head? = some '\x7b' ↔ name.head? = some '\x7b' := by
  cases name with
  | nil => rfl
  | cons c rest =>
    rw [snakeCaseAfter_cons]
    cases hbegins : beginsWord previous? c with
    | false => simpa using snakeChar_eq_brace_iff c
    | true =>
      have hne : c ≠ '\x7b' := by
        rintro rfl
        cases hbegins
      simp [hne]

/-- Lower-case words open an expression where the name does. -/
theorem openDelimiter_infix_snakeCaseAfter_iff (previous? : Option Char) (name : List Char) :
    openDelimiter <:+: snakeCaseAfter previous? name ↔ openDelimiter <:+: name := by
  induction name generalizing previous? with
  | nil => rfl
  | cons c rest ih =>
    have hhere : openDelimiter <+: snakeChar c :: snakeCaseAfter (some c) rest ↔
        openDelimiter <+: c :: rest := by
      rw [openDelimiter_prefix_cons_iff, openDelimiter_prefix_cons_iff, snakeChar_eq_brace_iff,
        head?_snakeCaseAfter_brace_iff]
    have hjoined : ∀ text, openDelimiter <:+: '_' :: text ↔ openDelimiter <:+: text := by
      intro text
      rw [List.infix_cons_iff, or_iff_right]
      rw [openDelimiter_prefix_cons_iff]
      exact fun h => absurd h.1 (by decide)
    rw [snakeCaseAfter_cons, List.infix_cons_iff (a := c), ← ih (some c), ← hhere,
      ← List.infix_cons_iff]
    split
    · exact hjoined _
    · rfl

theorem variableRemark?_eq_none_iff (name : String) (position : Position) :
    variableRemark? name position = none ↔
      openDelimiter <:+: name.toList ∨ isVariableName name.toList = true := by
  have hopens : contains name "\x7b\x7b" = hasPart openDelimiter name.toList := rfl
  rw [variableRemark?, hopens, ← hasPart_iff_infix, ← Bool.or_eq_true]
  split
  · rename_i h
    exact iff_of_true rfl h
  · rename_i h
    exact iff_of_false nofun h

/-- The suggestion for a name is the name in lower-case words, and the rule has nothing to
say of it exactly if these name a variable. -/
theorem exists_suggestion_of_variableRemark? {name : String} {position : Position}
    {remark : Remark} (h : variableRemark? name position = some remark) :
    ∃ suggestion, remark.suggestion? = some suggestion ∧
      suggestion.toList = snakeCase name.toList ∧
      (variableRemark? suggestion position = none ↔
        isVariableName (snakeCase name.toList) = true) := by
  have hsaid : ¬(openDelimiter <:+: name.toList ∨ isVariableName name.toList = true) := by
    rw [← variableRemark?_eq_none_iff name position, h]
    exact nofun
  have hclosed : ¬openDelimiter <:+: snakeCase name.toList := by
    intro hopens
    exact hsaid (.inl ((openDelimiter_infix_snakeCaseAfter_iff none _).mp hopens))
  have hsuggestion : remark.suggestion? = some (String.ofList (snakeCase name.toList)) := by
    unfold variableRemark? at h
    split at h
    · cases h
    · cases h
      rfl
  refine ⟨_, hsuggestion, String.toList_ofList, ?_⟩
  rw [variableRemark?_eq_none_iff, String.toList_ofList, or_iff_right hclosed]

/-- **Suggestions for names of variables are accepted exactly when they can be.** A name in
lower-case words names a variable exactly if the name is spellable. A name of a variable is in
lower-case words already, and lower-case words stay as they are. So the rule has nothing to
say of its own suggestion for a name exactly if the name is spellable. -/
theorem snakeCase_accepted_iff (name : String) :
    (isVariableName (snakeCase name.toList) = true ↔ IsSpellable name.toList) ∧
      (isVariableName name.toList = true → snakeCase name.toList = name.toList) ∧
      snakeCase (snakeCase name.toList) = snakeCase name.toList ∧
      ∀ position remark, variableRemark? name position = some remark →
        ∃ suggestion, remark.suggestion? = some suggestion ∧
          suggestion.toList = snakeCase name.toList ∧
          (variableRemark? suggestion position = none ↔ IsSpellable name.toList) := by
  refine ⟨isVariableName_snakeCase_iff _, snakeCase_of_isVariableName, snakeCase_snakeCase _, ?_⟩
  intro position remark hremark
  obtain ⟨suggestion, hsuggestion, hwords, hnone⟩ := exists_suggestion_of_variableRemark? hremark
  exact ⟨suggestion, hsuggestion, hwords, hnone.trans (isVariableName_snakeCase_iff _)⟩

/-- Capitals, spaces and dots have a form in lower-case words, a digit at the start has none. -/
theorem snakeCase_accepted_iff_httpPort :
    isVariableName "http_port".toList = true ∧
      snakeCase "http_port".toList = "http_port".toList ∧
      (∃ remark suggestion, variableRemark? "httpPort v.2" .start = some remark ∧
        remark.suggestion? = some suggestion ∧ suggestion.toList = "http_port_v_2".toList ∧
        variableRemark? suggestion .start = none) ∧
      ∃ remark suggestion, variableRemark? "2nd-Port" .start = some remark ∧
        remark.suggestion? = some suggestion ∧ suggestion.toList = "2nd_port".toList ∧
        variableRemark? suggestion .start ≠ none := by
  have hname : isVariableName "http_port".toList = true := by decide
  refine ⟨hname, (snakeCase_accepted_iff "http_port").2.1 hname, ?_, ?_⟩
  · obtain ⟨suggestion, hsuggestion, hwords, hnone⟩ :=
      (snakeCase_accepted_iff "httpPort v.2").2.2.2 .start _ rfl
    exact ⟨_, suggestion, rfl, hsuggestion, hwords.trans (by decide), hnone.mpr (by decide)⟩
  · obtain ⟨suggestion, hsuggestion, hwords, hnone⟩ :=
      (snakeCase_accepted_iff "2nd-Port").2.2.2 .start _ rfl
    refine ⟨_, suggestion, rfl, hsuggestion, hwords.trans (by decide), fun haccepted => ?_⟩
    exact absurd (hnone.mp haccepted) (by decide)

end PlaybookStyle.Rule
