/-
White space: the Unicode property, and the three ways of trimming it.

A text under inspection is a list of characters. `trimStart` and `trimEnd` are
both recursions on that list, so that `trimEnd` needs no reversal, and each has
the lemma that says what it keeps: a text is its trimmed form with blanks put
back on the side that was cut.
-/

namespace PlaybookStyle.Text

/-- The characters with the Unicode property `White_Space`. -/
def isBlank (c : Char) : Bool :=
  (0x09 ≤ c.val && c.val ≤ 0x0D) || c.val == 0x20 || c.val == 0x85 || c.val == 0xA0 ||
    c.val == 0x1680 || (0x2000 ≤ c.val && c.val ≤ 0x200A) || c.val == 0x2028 ||
    c.val == 0x2029 || c.val == 0x202F || c.val == 0x205F || c.val == 0x3000

/-- A text without its leading blanks. -/
def trimStart : List Char → List Char
  | [] => []
  | c :: rest => if isBlank c then trimStart rest else c :: rest

/-- A text without the trailing characters of a class. -/
def trimEndOf (p : Char → Bool) : List Char → List Char
  | [] => []
  | c :: rest =>
    match trimEndOf p rest with
    | [] => if p c then [] else [c]
    | kept => c :: kept

/-- A text without its trailing blanks. -/
def trimEnd (text : List Char) : List Char := trimEndOf isBlank text

/-- A text without its leading and trailing blanks. -/
def trim (text : List Char) : List Char := trimEnd (trimStart text)

theorem length_trimStart_le (text : List Char) : (trimStart text).length ≤ text.length := by
  induction text with
  | nil => simp [trimStart]
  | cons c rest ih =>
    unfold trimStart
    split
    · exact Nat.le_succ_of_le ih
    · simp

theorem takeWhile_append_trimStart (text : List Char) :
    text.takeWhile isBlank ++ trimStart text = text := by
  induction text with
  | nil => simp [trimStart]
  | cons c rest ih => by_cases h : isBlank c <;> simp [trimStart, h, ih]

theorem length_trimEndOf_le (p : Char → Bool) (text : List Char) :
    (trimEndOf p text).length ≤ text.length := by
  induction text with
  | nil => simp [trimEndOf]
  | cons c rest ih =>
    unfold trimEndOf
    split
    · split <;> simp
    · rename_i h
      simpa using ih

/-- What trimming cuts from the end belongs to the class. -/
theorem exists_append_trimEndOf (p : Char → Bool) (text : List Char) :
    ∃ cut, trimEndOf p text ++ cut = text ∧ cut.all p := by
  induction text with
  | nil => exact ⟨[], by simp [trimEndOf]⟩
  | cons c rest ih =>
    obtain ⟨cut, hcut, hall⟩ := ih
    unfold trimEndOf
    split
    · rename_i hnil
      rw [hnil] at hcut
      by_cases hc : p c
      · exact ⟨c :: cut, by simp [hc, ← hcut], by simp [hc, hall]⟩
      · exact ⟨cut, by simp [hc, ← hcut], hall⟩
    · exact ⟨cut, by simp [hcut], hall⟩

end PlaybookStyle.Text
