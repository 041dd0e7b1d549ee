/-
Playbooks written as the conventions ask.

A `Step` is a named task with one module call; its parameters are words, in double
quotes or bare, in the order of their names. `text` writes a play of such steps
with two spaces for every level and a blank line between steps, and `values` lists
its parameters with the places where their values stand. The lines of the text
are those of its blocks (`splitLines_text`), and every value stands at its place
(`standsAt_of_mem_values`).
-/

import PlaybookStyle.Proofs.Outline.Lines
import PlaybookStyle.Proofs.Source.Places

namespace PlaybookStyle.Conforming

open Text Outline

/-! ### Steps -/

/-- A text starts with a character of one class and goes on with those of another. -/
def hasForm (first more : Char → Bool) : List Char → Bool
  | [] => false
  | c :: rest => first c && rest.all more

/-- A character of a parameter's name. -/
def isKeyChar (c : Char) : Bool := c.isLower || c == '_'

/-- A character of a step's name. -/
def isTitleChar (c : Char) : Bool := c.isLower || c == ' '

/-- A character of a value. -/
def isValueChar (c : Char) : Bool :=
  c.isLower || c.isDigit || c == '/' || c == '.' || c == '_' || c == '-'

/-- A parameter and the way its value is written. -/
structure Parameter where
  name : String
  value : String
  /-- The value stands without quotes. -/
  bare : Bool
  name_form : hasForm Char.isLower isKeyChar name.toList = true
  value_form : hasForm (· == 'v') isValueChar value.toList = true

/-- The modules that steps call. -/
inductive Module where
  | copy
  | file
  | service
  | template
  | user
deriving DecidableEq, Repr

def Module.name : Module → String
  | copy => "copy"
  | file => "file"
  | service => "service"
  | template => "template"
  | user => "user"

/-- A task with a name and a module call. -/
structure Step where
  title : String
  module : Module
  parameters : List Parameter
  title_form : hasForm Char.isLower isTitleChar title.toList = true
  nonempty : parameters ≠ []
  sorted : (parameters.map Parameter.name).Pairwise (· < ·)

/-! ### Text -/

def inQuotes (text : String) : String := "\"" ++ text ++ "\""

/-- The value as it is written. -/
def Parameter.written (p : Parameter) : String := if p.bare then p.value else inQuotes p.value

def Parameter.text (p : Parameter) : String := "        " ++ p.name ++ ": " ++ p.written ++ "\n"

def Step.text (s : Step) : String :=
  "    - name: " ++ inQuotes s.title ++ "\n" ++ "      " ++ s.module.name ++ ":\n" ++
    String.join (s.parameters.map Parameter.text)

/-- A play for all hosts with these steps. -/
def text (steps : List Step) : String :=
  "- hosts: all\n  tasks:\n" ++ "\n".intercalate (steps.map Step.text)

/-! ### Places -/

/-- A parameter with the place of its value. -/
structure PlacedValue where
  position : Position
  parameter : Parameter

/-- Parameters on lines from a number on, each behind its key. -/
def valuesFrom (number : Nat) : List Parameter → List PlacedValue
  | [] => []
  | p :: rest =>
    ⟨⟨number, byteLength p.name.toList + 11⟩, p⟩ :: valuesFrom (number + 1) rest

/-- The values of steps, the first of which starts on a line: two lines stand
before the parameters of a step, and a blank line behind them. -/
def valuesOf (number : Nat) : List Step → List PlacedValue
  | [] => []
  | s :: rest => valuesFrom (number + 2) s.parameters ++ valuesOf (number + s.parameters.length + 3) rest

/-- The values in the text of steps, in source order. -/
def values (steps : List Step) : List PlacedValue := valuesOf 3 steps

/-! ### Lines -/

def Parameter.block (p : Parameter) : BlockLine :=
  ⟨8, p.name.toList ++ ':' :: ' ' :: p.written.toList⟩

/-- The text behind the dash of a step. -/
def Step.head (s : Step) : List Char :=
  "name".toList ++ ':' :: ' ' :: '"' :: (s.title.toList ++ ['"'])

/-- The lines of a step: its name behind a dash, its module, its parameters. -/
def Step.blocks (s : Step) : List BlockLine :=
  ⟨4, '-' :: ' ' :: s.head⟩ :: ⟨6, s.module.name.toList ++ [':']⟩ ::
    s.parameters.map Parameter.block

/-- The lines before the first step. -/
def playBlocks : List BlockLine :=
  [⟨0, '-' :: ' ' :: ("hosts".toList ++ ':' :: ' ' :: "all".toList)⟩, ⟨2, "tasks".toList ++ [':']⟩]

def Step.lines (s : Step) : List (List Char) := s.blocks.map BlockLine.source

/-- The lines of steps, with a blank line between two of them. -/
def stepLines : List Step → List (List Char)
  | [] => []
  | [s] => s.lines
  | s :: next :: rest => s.lines ++ [] :: stepLines (next :: rest)

def playLines : List (List Char) := playBlocks.map BlockLine.source

/-- All source lines. -/
def sourceLines (steps : List Step) : List (List Char) := playLines ++ stepLines steps

theorem Parameter.toList_text (p : Parameter) :
    p.text.toList = joinLines [p.block.source] := by
  simp [Parameter.text, Parameter.block, BlockLine.source, joinLines, List.replicate]

theorem Step.toList_text (s : Step) : s.text.toList = joinLines s.lines := by
  have hparameters : (String.join (s.parameters.map Parameter.text)).toList =
      joinLines (s.parameters.map fun p => p.block.source) := by
    rw [String.toList_join]
    simp only [List.flatMap_map, Parameter.toList_text, joinLines, List.flatMap_singleton]
  have hhead : ("    - name: " ++ inQuotes s.title ++ "\n").toList =
      BlockLine.source ⟨4, '-' :: ' ' :: s.head⟩ ++ ['\n'] := by
    simp [BlockLine.source, Step.head, inQuotes, List.replicate]
  have hmodule : ("      " ++ s.module.name ++ ":\n").toList =
      BlockLine.source ⟨6, s.module.name.toList ++ [':']⟩ ++ ['\n'] := by
    simp [BlockLine.source, List.replicate]
  have hlines : s.lines = BlockLine.source ⟨4, '-' :: ' ' :: s.head⟩ ::
      BlockLine.source ⟨6, s.module.name.toList ++ [':']⟩ ::
        s.parameters.map fun p => p.block.source := by
    simp only [Step.lines, Step.blocks, List.map_cons, List.map_map, Function.comp_def]
  rw [hlines, joinLines, List.flatMap_cons, List.flatMap_cons, ← joinLines, ← hparameters, ← hhead,
    ← hmodule]
  unfold Step.text
  simp only [String.append_assoc, String.toList_append, List.append_assoc]

theorem toList_intercalate_text (steps : List Step) :
    ("\n".intercalate (steps.map Step.text)).toList = joinLines (stepLines steps) := by
  fun_induction stepLines steps with
  | case1 => rfl
  | case2 s =>
    rw [List.map_singleton, String.intercalate_singleton]
    exact s.toList_text
  | case3 s next rest ih =>
    rw [List.map_cons] at ih
    rw [List.map_cons, List.map_cons, String.intercalate_cons_cons, String.toList_append,
      String.toList_append, ih, s.toList_text, joinLines_append, List.append_assoc]
    rfl

theorem toList_text (steps : List Step) : (text steps).toList = joinLines (sourceLines steps) := by
  have hplay : "- hosts: all\n  tasks:\n".toList = joinLines playLines := by decide
  unfold text
  rw [String.toList_append, hplay, toList_intercalate_text, sourceLines, joinLines_append]

/-! ### Forms -/

section Forms

variable {first more : Char → Bool} {word : List Char}

theorem forall_of_hasForm {p : Char → Prop} (h : hasForm first more word = true)
    (hfirst : ∀ c, first c = true → p c) (hmore : ∀ c, more c = true → p c) :
    ∀ c ∈ word, p c := by
  cases word with
  | nil => cases h
  | cons head rest =>
    obtain ⟨hhead, hrest⟩ := Bool.and_eq_true_iff.mp h
    intro c hc
    rcases List.mem_cons.mp hc with rfl | hc
    · exact hfirst c hhead
    · exact hmore c (List.all_eq_true.mp hrest c hc)

theorem isAlpha_of_isLower {c : Char} (h : c.isLower = true) : c.isAlpha = true := by
  show (c.isUpper || c.isLower) = true
  rw [h, Bool.or_true]

theorem isName_of_hasForm (h : hasForm Char.isLower isKeyChar word = true) :
    isName word = true := by
  cases word with
  | nil => cases h
  | cons head rest =>
    obtain ⟨hhead, hrest⟩ := Bool.and_eq_true_iff.mp h
    rw [isName, isAlpha_of_isLower hhead, Bool.true_or, Bool.true_and, List.all_eq_true]
    intro c hc
    have hkey := List.all_eq_true.mp hrest c hc
    rw [isKeyChar, Bool.or_eq_true] at hkey
    rcases hkey with hkey | hkey
    · simp [Char.isAlphanum, isAlpha_of_isLower hkey]
    · rw [hkey, Bool.or_true]

theorem isWord_of_hasForm (h : hasForm (· == 'v') isValueChar word = true) :
    isWord word = true := by
  cases word with
  | nil => cases h
  | cons head rest =>
    obtain ⟨hhead, hrest⟩ := Bool.and_eq_true_iff.mp h
    obtain rfl := beq_iff_eq.mp hhead
    rw [isWord, show Char.isAlpha 'v' = true from rfl, Bool.true_and, List.all_eq_true]
    intro c hc
    have hvalue := List.all_eq_true.mp hrest c hc
    simp only [isValueChar, Bool.or_eq_true] at hvalue
    rcases hvalue with ((((hlower | hdigit) | hslash) | hdot) | hunderscore) | hdash
    · simp [isWordChar, Char.isAlphanum, isAlpha_of_isLower hlower]
    · simp [isWordChar, Char.isAlphanum, hdigit]
    all_goals simp_all [isWordChar]

/-- A character that is no quote, no backslash, no line feed and no brace. -/
def IsOrdinary (c : Char) : Prop := c ≠ '"' ∧ c ≠ '\\' ∧ c ≠ '\n' ∧ c ≠ '\x7b'

theorem isOrdinary_of_isWordChar {c : Char} (h : isWordChar c = true) : IsOrdinary c := by
  refine ⟨?_, ?_, ?_, ?_⟩
  all_goals
    rintro rfl
    cases h

theorem isOrdinary_of_isTitleChar {c : Char} (h : isTitleChar c = true) : IsOrdinary c := by
  refine ⟨?_, ?_, ?_, ?_⟩
  all_goals
    rintro rfl
    cases h

end Forms

/-! ### What is written -/

section Written

variable (p : Parameter) (s : Step)

theorem Parameter.isPlainKey : IsPlainKey p.name.toList :=
  isPlainKey_of_isName (isName_of_hasForm p.name_form)

theorem Parameter.isWord_value : isWord p.value.toList = true := isWord_of_hasForm p.value_form

theorem Parameter.isOrdinary_value : ∀ c ∈ p.value.toList, IsOrdinary c := fun c hc =>
  isOrdinary_of_isWordChar (List.all_eq_true.mp (all_isWordChar_of_isWord p.isWord_value) c hc)

theorem Module.isPlainKey (m : Module) : IsPlainKey m.name.toList := by
  apply isPlainKey_of_isName
  cases m <;> decide

theorem Step.isOrdinary_title : ∀ c ∈ s.title.toList, IsOrdinary c :=
  forall_of_hasForm s.title_form
    (fun _ hc => isOrdinary_of_isTitleChar (by rw [isTitleChar, hc, Bool.true_or]))
    fun _ hc => isOrdinary_of_isTitleChar hc

/-- What is read of a value between quotes. -/
def quoted (text : String) : ScalarText := ⟨(inQuotes text).toList, text.toList, .double⟩

/-- What is read of a parameter's value. -/
def Parameter.found : ScalarText :=
  if p.bare then ⟨p.value.toList, p.value.toList, .unquoted⟩ else quoted p.value

theorem toList_inQuotes (text : String) : (inQuotes text).toList = '"' :: (text.toList ++ ['"']) := by
  simp [inQuotes]

theorem token_inQuotes {text : String} (h : ∀ c ∈ text.toList, IsOrdinary c) :
    Token (inQuotes text).toList (quoted text) := by
  rw [quoted, toList_inQuotes]
  exact token_double fun c hc => ⟨(h c hc).1, (h c hc).2.1⟩

theorem Parameter.token : Token p.written.toList p.found := by
  unfold Parameter.written Parameter.found
  cases p.bare with
  | true => exact token_word p.isWord_value
  | false => exact token_inQuotes p.isOrdinary_value

end Written

/-! ### Regular lines -/

/-- A line of a block with its indentation in steps of two. -/
structure Regular (b : BlockLine) : Prop where
  solid : b.Solid
  line : '\n' ∉ b.text
  even : b.indent % 2 = 0

section Regular

variable {p : Parameter} {s : Step} {steps : List Step}

theorem newline_not_mem_name {key : List Char} (h : isName key = true) : '\n' ∉ key := by
  intro hmem
  have hword := List.all_eq_true.mp (all_isWordChar_of_isName h) _ hmem
  cases hword

theorem newline_not_mem_inQuotes {text : String} (h : ∀ c ∈ text.toList, IsOrdinary c) :
    '\n' ∉ (inQuotes text).toList := by
  have htext : '\n' ∉ text.toList := fun hmem => (h _ hmem).2.2.1 rfl
  simp [toList_inQuotes, htext]

theorem Parameter.regular (p : Parameter) : Regular p.block := by
  have hname := newline_not_mem_name (isName_of_hasForm p.name_form)
  have hwritten : '\n' ∉ p.written.toList := by
    unfold Parameter.written
    cases p.bare with
    | true => exact fun hmem => (p.isOrdinary_value _ hmem).2.2.1 rfl
    | false => exact newline_not_mem_inQuotes p.isOrdinary_value
  refine ⟨p.token.solid p.isPlainKey, ?_, show 8 % 2 = 0 from rfl⟩
  simp [Parameter.block, hname, hwritten]

theorem isPlainKey_name : IsPlainKey "name".toList := isPlainKey_of_isName (by decide)

theorem Step.regular (s : Step) : ∀ b ∈ s.blocks, Regular b := by
  have htitle := newline_not_mem_inQuotes s.isOrdinary_title
  have htoken := token_inQuotes s.isOrdinary_title
  rw [toList_inQuotes] at htitle htoken
  have hmodule : '\n' ∉ s.module.name.toList := by cases s.module <;> decide
  have hhead : BlockLine.Solid ⟨4, s.head⟩ := htoken.solid isPlainKey_name
  have hdash : BlockLine.Solid ⟨4, '-' :: ' ' :: s.head⟩ :=
    solid_dash_line rfl (hhead.closes.append ['-', ' ']) 4
  intro b hb
  simp only [Step.blocks, List.mem_cons, List.mem_map] at hb
  rcases hb with rfl | rfl | ⟨p, -, rfl⟩
  · refine ⟨hdash, ?_, show 4 % 2 = 0 from rfl⟩
    simpa [Step.head] using htitle
  · refine ⟨s.module.isPlainKey.solid, ?_, show 6 % 2 = 0 from rfl⟩
    simpa using hmodule
  · exact p.regular

theorem isPlainKey_hosts : IsPlainKey "hosts".toList := isPlainKey_of_isName (by decide)

theorem isPlainKey_tasks : IsPlainKey "tasks".toList := isPlainKey_of_isName (by decide)

/-- What is read of the hosts. -/
def allHosts : ScalarText := ⟨"all".toList, "all".toList, .unquoted⟩

theorem token_allHosts : Token "all".toList allHosts := token_word (by decide)

theorem regular_playBlocks : ∀ b ∈ playBlocks, Regular b := by
  have hhosts : BlockLine.Solid ⟨0, "hosts".toList ++ ':' :: ' ' :: "all".toList⟩ :=
    token_allHosts.solid isPlainKey_hosts
  intro b hb
  simp only [playBlocks, List.mem_cons, List.not_mem_nil, or_false] at hb
  rcases hb with rfl | rfl
  · exact ⟨solid_dash_line rfl (hhosts.closes.append ['-', ' ']) 0, by decide, rfl⟩
  · exact ⟨isPlainKey_tasks.solid, by decide, rfl⟩

theorem mem_stepLines {line : List Char} (h : line ∈ stepLines steps) :
    line = [] ∨ ∃ b, Regular b ∧ line = b.source := by
  have hlines : ∀ s : Step, line ∈ s.lines → ∃ b, Regular b ∧ line = b.source := by
    intro s hmem
    obtain ⟨b, hb, rfl⟩ := List.mem_map.mp hmem
    exact ⟨b, s.regular b hb, rfl⟩
  fun_induction stepLines steps with
  | case1 => cases h
  | case2 s => exact .inr (hlines s h)
  | case3 s next rest ih =>
    rcases List.mem_append.mp h with h | h
    · exact .inr (hlines s h)
    · rcases List.mem_cons.mp h with rfl | h
      · exact .inl rfl
      · exact ih h

/-- A source line is blank or regular. -/
theorem mem_sourceLines {line : List Char} (h : line ∈ sourceLines steps) :
    line = [] ∨ ∃ b, Regular b ∧ line = b.source := by
  rcases List.mem_append.mp h with h | h
  · obtain ⟨b, hb, rfl⟩ := List.mem_map.mp h
    exact .inr ⟨b, regular_playBlocks b hb, rfl⟩
  · exact mem_stepLines h

/-! ### The lines of the text -/

theorem splitLines_text (steps : List Step) :
    splitLines (text steps).toList = sourceLines steps := by
  rw [toList_text]
  apply splitLines_joinLines
  intro line hline
  rcases mem_sourceLines hline with rfl | ⟨b, hb, rfl⟩
  · simp
  · simp [BlockLine.source, hb.line]

end Regular

/-! ### Where the values stand -/

section Values

variable {v : PlacedValue} {number : Nat}

/-- Of some parameters, one on each line. -/
theorem exists_of_mem_valuesFrom {ps : List Parameter} (h : v ∈ valuesFrom number ps) :
    ∃ i, v.position = ⟨number + i, byteLength v.parameter.name.toList + 11⟩ ∧
      ps[i]? = some v.parameter := by
  induction ps generalizing number with
  | nil => cases h
  | cons p rest ih =>
    rcases List.mem_cons.mp h with rfl | h
    · exact ⟨0, rfl, rfl⟩
    · obtain ⟨i, hposition, hget⟩ := ih h
      refine ⟨i + 1, ?_, hget⟩
      rw [hposition, Nat.add_right_comm, Nat.add_assoc]

theorem Step.length_lines (s : Step) : s.lines.length = s.parameters.length + 2 := by
  simp [Step.lines, Step.blocks]

/-- The values of a step, on its lines. -/
theorem exists_line_of_mem_parameters {s : Step} (h : v ∈ valuesFrom (number + 2) s.parameters) :
    ∃ i, v.position = ⟨number + i, byteLength v.parameter.name.toList + 11⟩ ∧
      s.lines[i]? = some v.parameter.block.source := by
  obtain ⟨i, hposition, hget⟩ := exists_of_mem_valuesFrom h
  refine ⟨i + 2, ?_, ?_⟩
  · rw [hposition, Nat.add_assoc, Nat.add_comm 2 i]
  · simp [Step.lines, Step.blocks, hget]

theorem exists_line_of_mem_valuesOf {steps : List Step} (h : v ∈ valuesOf number steps) :
    ∃ i, v.position = ⟨number + i, byteLength v.parameter.name.toList + 11⟩ ∧
      (stepLines steps)[i]? = some v.parameter.block.source := by
  fun_induction stepLines steps generalizing number with
  | case1 => cases h
  | case2 s =>
    rw [valuesOf, valuesOf, List.append_nil] at h
    exact exists_line_of_mem_parameters h
  | case3 s next rest ih =>
    rw [valuesOf] at h
    rcases List.mem_append.mp h with h | h
    · obtain ⟨i, hposition, hget⟩ := exists_line_of_mem_parameters h
      obtain ⟨hi, -⟩ := List.getElem?_eq_some_iff.mp hget
      exact ⟨i, hposition, by rw [List.getElem?_append_left hi, hget]⟩
    · obtain ⟨i, hposition, hget⟩ := ih h
      refine ⟨s.lines.length + (i + 1), ?_, ?_⟩
      · rw [hposition, s.length_lines]
        congr 1
        omega
      · rw [List.getElem?_append_right (Nat.le_add_right _ _), Nat.add_sub_cancel_left]
        exact hget

/-- A value stands at its place. -/
theorem standsAt_of_mem_values {steps : List Step} (h : v ∈ values steps) :
    StandsAt (text steps).toList v.position v.parameter.written.toList := by
  obtain ⟨i, hposition, hget⟩ := exists_line_of_mem_valuesOf h
  have hline : (splitLines (text steps).toList)[i + 2]? = some v.parameter.block.source := by
    rw [splitLines_text, sourceLines, List.getElem?_append_right (by simp [playLines, playBlocks])]
    simpa [playLines, playBlocks] using hget
  obtain ⟨after, hafter⟩ := exists_line?_of_splitLines (p := (· == '\r')) rfl hline
  rw [v.parameter.regular.solid.trimEndOf_source] at hafter
  have hnumber : v.position.line = i + 2 + 1 := by
    rw [hposition]
    exact Nat.add_comm 3 i
  have hspaces : byteLength (List.replicate 8 ' ') = 8 := by decide
  refine ⟨List.replicate 8 ' ' ++ (v.parameter.name.toList ++ [':', ' ']), after, ?_, ?_⟩
  · rw [hnumber, hafter]
    simp [BlockLine.source, Parameter.block]
  · have hcolon : byteLength [':', ' '] = 2 := by decide
    rw [hposition, byteLength_append, byteLength_append, hspaces, hcolon]
    show byteLength v.parameter.name.toList + 11 = 8 + (byteLength v.parameter.name.toList + 2) + 1
    omega

/-! ### The values in order -/

theorem map_parameter_valuesFrom (number : Nat) (ps : List Parameter) :
    (valuesFrom number ps).map PlacedValue.parameter = ps := by
  induction ps generalizing number with
  | nil => rfl
  | cons p rest ih => rw [valuesFrom, List.map_cons, ih]

theorem map_parameter_valuesOf (number : Nat) (steps : List Step) :
    (valuesOf number steps).map PlacedValue.parameter = steps.flatMap Step.parameters := by
  induction steps generalizing number with
  | nil => rfl
  | cons s rest ih =>
    rw [valuesOf, List.map_append, map_parameter_valuesFrom, ih, List.flatMap_cons]

theorem line_of_mem_valuesFrom {ps : List Parameter} (h : v ∈ valuesFrom number ps) :
    number ≤ v.position.line ∧ v.position.line < number + ps.length := by
  obtain ⟨i, hposition, hget⟩ := exists_of_mem_valuesFrom h
  obtain ⟨hi, -⟩ := List.getElem?_eq_some_iff.mp hget
  rw [hposition]
  exact ⟨Nat.le_add_right number i, Nat.add_lt_add_left hi number⟩

theorem le_line_of_mem_valuesOf {steps : List Step} (h : v ∈ valuesOf number steps) :
    number ≤ v.position.line := by
  obtain ⟨i, hposition, -⟩ := exists_line_of_mem_valuesOf h
  rw [hposition]
  exact Nat.le_add_right number i

/-- The values stand on different lines, one below the other. -/
def Descends (values : List PlacedValue) : Prop :=
  values.Pairwise fun v w => v.position.line < w.position.line

theorem descends_valuesFrom (number : Nat) (ps : List Parameter) :
    Descends (valuesFrom number ps) := by
  induction ps generalizing number with
  | nil => exact .nil
  | cons p rest ih => exact .cons (fun w hw => (line_of_mem_valuesFrom hw).1) (ih (number + 1))

theorem descends_valuesOf (number : Nat) (steps : List Step) :
    Descends (valuesOf number steps) := by
  induction steps generalizing number with
  | nil => exact .nil
  | cons s rest ih =>
    refine List.pairwise_append.mpr ⟨descends_valuesFrom _ _, ih _, fun v hv w hw => ?_⟩
    have hbefore := (line_of_mem_valuesFrom hv).2
    have hbehind := le_line_of_mem_valuesOf hw
    omega

end Values

end PlaybookStyle.Conforming
