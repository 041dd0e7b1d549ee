/-
When the rules have nothing to say.

For the remarks of each rule that looks at the form of a line, a key or a name:
what has to hold of the part so that there are none. Keys are silent if their
colon is written as it should be, lists of keys if they are sorted, lines if their
spaces come in pairs, texts if they hold no brace, and a path that ends in `.yml`
has no other extension.
-/

import Mathlib.Data.List.Chain
import PlaybookStyle.Proofs.Outline.Tree
import PlaybookStyle.Proofs.Rule.Places

namespace PlaybookStyle

open Text Playbook

/-! ### Paths -/

namespace Text

theorem pieces_of_not_mem {separator : Char} {text : List Char} (h : separator ∉ text) :
    pieces separator text = [text] := by
  induction text with
  | nil => rfl
  | cons c rest ih =>
    rw [List.mem_cons, not_or] at h
    rw [pieces, if_neg (Ne.symm h.1), ih h.2]

/-- What is put behind a text is put behind its last piece. -/
theorem exists_pieces_append {separator : Char} {ending : List Char} (h : separator ∉ ending)
    (text : List Char) :
    ∃ before last, pieces separator (text ++ ending) = before ++ [last ++ ending] := by
  induction text with
  | nil => exact ⟨[], [], pieces_of_not_mem h⟩
  | cons c rest ih =>
    obtain ⟨before, last, hpieces⟩ := ih
    rw [List.cons_append, pieces, hpieces]
    by_cases hc : c = separator
    · rw [if_pos hc]
      exact ⟨[] :: before, last, rfl⟩
    · rw [if_neg hc]
      cases before with
      | nil => exact ⟨[], c :: last, rfl⟩
      | cons first others => exact ⟨(c :: first) :: others, last, rfl⟩

end Text

namespace Path

/-- A piece of a path that stands for a component. -/
def isKept (name : List Char) : Bool := !name.isEmpty && name != ['.']

/-- A name of more than two characters is kept, and is no step upwards. -/
theorem isKept_of_lt_length {name : List Char} (h : 2 < name.length) :
    isKept name = true ∧ Component.ofName name = .normal (String.ofList name) := by
  have hempty : name.isEmpty = false := by
    cases name with
    | nil => cases h
    | cons c rest => rfl
  have hdot : name ≠ ['.'] := by
    rintro rfl
    exact absurd h (by decide)
  have hparent : name ≠ ['.', '.'] := by
    rintro rfl
    exact absurd h (by decide)
  exact ⟨by simp [isKept, hempty, hdot], if_neg hparent⟩

/-- A long name at the end of a path is its last component. -/
theorem getLast?_components {path : String} {before : List (List Char)} {last : List Char}
    (hpieces : pieces '/' path.toList = before ++ [last]) (hlong : 2 < last.length) :
    (components path).getLast? = some (.normal (String.ofList last)) := by
  obtain ⟨hkept, hlast⟩ := isKept_of_lt_length hlong
  have hconcat : ∀ front names, (front ++ ((names ++ [last]).filter isKept).map
      Component.ofName).getLast? = some (.normal (String.ofList last)) := by
    intro front names
    rw [List.filter_append, List.map_append, List.filter_cons_of_pos hkept, List.filter_nil,
      List.map_singleton, hlast, ← List.append_assoc, List.getLast?_concat]
  unfold components
  rw [hpieces]
  cases before with
  | nil =>
    obtain ⟨hfull, hdot⟩ := Bool.and_eq_true_iff.mp hkept
    dsimp only [List.nil_append]
    rw [if_neg (by simpa using hfull), if_neg (by simpa using hdot)]
    exact hconcat [] []
  | cons first others =>
    dsimp only [List.cons_append]
    split
    · exact hconcat _ others
    · split
      · exact hconcat [.current] others
      · exact hconcat [] (first :: others)

/-- A path that ends in a word behind a dot names a file that does. -/
theorem exists_fileName?_append {ending : List Char} (hslash : '/' ∉ ending)
    (hlong : 2 < ending.length) (stem : String) :
    ∃ name, fileName? (stem ++ String.ofList ending) = some (String.ofList (name ++ ending)) := by
  obtain ⟨before, last, hpieces⟩ := exists_pieces_append hslash stem.toList
  have htext : (stem ++ String.ofList ending).toList = stem.toList ++ ending := by
    rw [String.toList_append, String.toList_ofList]
  have hlength : 2 < (last ++ ending).length := by
    rw [List.length_append]
    omega
  rw [← htext] at hpieces
  exact ⟨last, by rw [fileName?, getLast?_components hpieces hlength]⟩

/-- The only extension that a name with `.yml` at its end can have. -/
theorem splitName_append_yml (name : List Char) :
    (splitName (String.ofList (name ++ ['.', 'y', 'm', 'l']))).2 = none ∨
      (splitName (String.ofList (name ++ ['.', 'y', 'm', 'l']))).2 = some "yml" := by
  unfold splitName
  rw [String.toList_ofList, List.reverse_append]
  cases hstem : name.reverse with
  | nil => exact .inl rfl
  | cons c rest => exact .inr rfl

theorem extension?_append_yml (stem : String) :
    extension? (stem ++ ".yml") = none ∨ extension? (stem ++ ".yml") = some "yml" := by
  have hending : ".yml" = String.ofList ['.', 'y', 'm', 'l'] := rfl
  have hslash : '/' ∉ ['.', 'y', 'm', 'l'] := by decide
  obtain ⟨name, hname⟩ := exists_fileName?_append hslash (by decide) stem
  rw [extension?, hending, hname]
  exact splitName_append_yml name

end Path

namespace Rule

theorem extensionRemark?_append_yml (stem : String) (position : Position) :
    extensionRemark? .ymlOnly (stem ++ ".yml") position = none := by
  rcases Path.extension?_append_yml stem with hnone | hsome
  · rw [extensionRemark?, hnone]
  · rw [extensionRemark?, hsome]
    exact if_neg (by decide)

/-! ### Keys -/

/-- A key is silent if no blank stands before its colon and one space behind it. -/
theorem colonRemarks_eq_nil_iff {key : String} {position : Position} {spacing : KeySpacing} :
    colonRemarks key position spacing = [] ↔
      spacing.beforeColon = 0 ∧ spacing.tabAfterColon = false ∧
        (spacing.afterColon = none ∨ spacing.afterColon = some 1) := by
  have hbefore : beforeColonRemark? key position spacing = none ↔ spacing.beforeColon = 0 := by
    simp [beforeColonRemark?]
  have hafter : afterColonRemark? key position spacing = none ↔
      spacing.tabAfterColon = false ∧
        (spacing.afterColon = none ∨ spacing.afterColon = some 1) := by
    unfold afterColonRemark?
    cases spacing.tabAfterColon with
    | true => simp
    | false =>
      rw [if_neg Bool.false_ne_true]
      split <;> simp_all
  rw [colonRemarks, List.append_eq_nil_iff, Option.toList_eq_nil_iff, Option.toList_eq_nil_iff,
    hbefore, hafter]

/-- Keys are silent if none is smaller than the one before it. -/
theorem unsorted_eq_nil_iff {keys : List (String × Position)} :
    unsorted keys = [] ↔ keys.IsChain fun a b => ¬b.1 < a.1 := by
  fun_induction unsorted keys with
  | case1 first second rest hlt ih =>
    constructor
    · intro hnone
      cases hnone
    · exact fun hchain => absurd hlt (List.isChain_cons_cons.mp hchain).1
  | case2 first second rest hlt ih => rw [List.isChain_cons_cons, ih, and_iff_right hlt]
  | case3 keys hshort =>
    cases keys with
    | nil => simp
    | cons first rest =>
      cases rest with
      | nil => simp
      | cons second rest => exact absurd rfl (hshort first second rest)

/-! ### Lines -/

/-- A line is silent if it is indented by an even number of spaces. -/
theorem indentRemark?_eq_none_iff {number k : Nat} {text : List Char}
    (hstarts : Outline.Starts text) :
    indentRemark? number (List.replicate k ' ' ++ text) = none ↔ k % 2 = 0 := by
  obtain ⟨c, rest, rfl, hblank, hmark⟩ := hstarts
  have hindent : isIndent c = false := by
    apply Bool.eq_false_iff.mpr
    intro hc
    rw [isIndent, Bool.or_eq_true, decide_eq_true_eq, decide_eq_true_eq] at hc
    rcases hc with rfl | rfl
    all_goals cases hblank
  have hspaces : ∀ d ∈ List.replicate k ' ', isIndent d = true := by
    intro d hd
    rw [List.eq_of_mem_replicate hd]
    rfl
  have hleading : (List.replicate k ' ' ++ c :: rest).takeWhile isIndent = List.replicate k ' ' := by
    rw [List.takeWhile_append_of_pos hspaces, List.takeWhile_cons_of_neg (by simp [hindent]),
      List.append_nil]
  have hrest : (List.replicate k ' ' ++ c :: rest).dropWhile isIndent = c :: rest := by
    rw [List.dropWhile_append_of_pos hspaces, List.dropWhile_cons_of_neg (by simp [hindent])]
  have htab : (List.replicate k ' ').contains '\t' = false := by
    simp [List.mem_replicate]
  unfold indentRemark?
  dsimp only
  rw [hleading, hrest, htab, List.length_replicate]
  split
  · rename_i heq
    cases heq
  · rename_i heq
    exact absurd (List.cons.inj heq).1 hmark
  · simp

/-! ### Texts -/

theorem expressions_eq_nil {text : List Char} (h : '\x7b' ∉ text) : expressions text = [] := by
  unfold expressions
  split
  · rfl
  · rename_i before opened hsplit
    have htext := splitAround_eq_append hsplit
    exact absurd (htext ▸ by simp [openDelimiter]) h

end Rule

/-! ### Blank lines -/

/-- A blank line right above a line counts. -/
theorem SourceLines.blankLinesBefore_pos {source : SourceLines} {above below : List (List Char)}
    (h : source.lines = above ++ below) (hblank : above.getLast? = some []) :
    0 < source.blankLinesBefore (above.length + 1) := by
  obtain ⟨front, rfl⟩ := List.getLast?_eq_some_iff.mp hblank
  have htake : source.lines.take (front ++ [[]]).length = front ++ [[]] := by
    rw [h, List.take_left]
  have hsize : (front ++ [[]]).length ≤ source.size := by
    rw [size, h]
    exact (List.prefix_append _ below).length_le
  rw [blankLinesBefore, Nat.add_sub_cancel, if_pos hsize, htake, List.reverse_append]
  exact Nat.succ_pos _

end PlaybookStyle
