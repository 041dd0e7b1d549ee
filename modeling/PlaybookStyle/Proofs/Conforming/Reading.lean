/-
The outline of a conforming text.

The scanner reads the lines of the text one after the other: the parameters of a
step up to the next line that is less deep, a step behind its dash, the steps up
to the end. `outline` is what it reads, with all places (`scan_text`).
-/

import PlaybookStyle.Proofs.Conforming.Layout

namespace PlaybookStyle.Conforming

open Text Outline

/-! ### Logical lines -/

/-- The logical lines of steps, the first of which starts on a line. -/
def logicalLines (number : Nat) : List Step → List LogicalLine
  | [] => []
  | s :: rest => numbered number s.blocks ++ logicalLines (number + s.parameters.length + 3) rest

theorem Step.length_blocks (s : Step) : s.blocks.length = s.parameters.length + 2 := by
  simp [Step.blocks]

theorem ofLines_stepLines (number : Nat) (steps : List Step) :
    LogicalLine.ofLines number (stepLines steps) = logicalLines number steps := by
  fun_induction stepLines steps generalizing number with
  | case1 => rfl
  | case2 s =>
    have hlines := ofLines_append (fun b hb => (s.regular b hb).solid) number []
    rwa [List.append_nil] at hlines
  | case3 s next rest ih =>
    have hlines := ofLines_append (fun b hb => (s.regular b hb).solid) number
      ([] :: stepLines (next :: rest))
    rw [ofLines_blank, ih, s.length_blocks] at hlines
    exact hlines

/-- Blank lines are no logical lines, all others are. -/
theorem ofText_toList_text (steps : List Step) :
    LogicalLine.ofText (text steps).toList = numbered 1 playBlocks ++ logicalLines 3 steps := by
  rw [LogicalLine.ofText, splitLines_text, sourceLines, playLines,
    ofLines_append fun b hb => (regular_playBlocks b hb).solid, ofLines_stepLines]
  rfl

/-! ### What is read -/

def Parameter.entry (number : Nat) (p : Parameter) : Entry Node :=
  tokenEntry p.name.toList p.found number 8

/-- The entries of parameters, one on each line. -/
def parameterEntries (number : Nat) : List Parameter → List (Entry Node)
  | [] => []
  | p :: rest => p.entry number :: parameterEntries (number + 1) rest

def Step.titleEntry (number : Nat) (s : Step) : Entry Node :=
  tokenEntry "name".toList (quoted s.title) number 6

/-- The module with its parameters below. -/
def Step.moduleEntry (number : Nat) (s : Step) : Entry Node :=
  ⟨String.ofList s.module.name.toList, ⟨number + 1, 7⟩, unspaced,
    .mapping ⟨number + 2, 9⟩ (parameterEntries (number + 2) s.parameters),
    number + 1 + s.parameters.length⟩

def Step.item (number : Nat) (s : Step) : Item Node :=
  ⟨⟨number, 5⟩, .mapping ⟨number, 7⟩ [s.titleEntry number, s.moduleEntry number],
    number + 1 + s.parameters.length⟩

/-- The items of steps, the first of which starts on a line. -/
def stepItems (number : Nat) : List Step → List (Item Node)
  | [] => []
  | s :: rest => s.item number :: stepItems (number + s.parameters.length + 3) rest

def tasksEntry (steps : List Step) : Entry Node :=
  ⟨String.ofList "tasks".toList, ⟨2, 3⟩, unspaced, .sequence ⟨3, 5⟩ (stepItems 3 steps),
    (sourceLines steps).length⟩

def hostsEntry : Entry Node := tokenEntry "hosts".toList allHosts 1 2

/-- The play, from the first line to the last. -/
def playItem (steps : List Step) : Item Node :=
  ⟨⟨1, 1⟩, .mapping ⟨1, 3⟩ [hostsEntry, tasksEntry steps], (sourceLines steps).length⟩

def outline (steps : List Step) : Node := .sequence ⟨1, 1⟩ [playItem steps]

/-! ### Reading -/

section Reading

variable {c after : Cursor} {rest : List LogicalLine} {number : Nat}

/-- The parameters of a step are read up to a line that is less deep. -/
theorem parameters_read (ps : List Parameter)
    (hlines : c.lines = numbered (c.lastLine + 1) (ps.map Parameter.block) ++ rest)
    (hrest : ∀ next ∈ rest.head?, next.indent < 8) :
    EntriesAt 8 c (parameterEntries (c.lastLine + 1) ps)
      { c with lines := rest, lastLine := c.lastLine + ps.length } := by
  induction ps generalizing c with
  | nil =>
    obtain ⟨lines, lastLine, verbatim⟩ := c
    obtain rfl : lines = rest := hlines
    refine .stop fun line hline => ?_
    have hlt := hrest line hline
    rintro ⟨hindent, -⟩
    omega
  | cons p more ih =>
    have hnext : ∀ next ∈
        (numbered (c.lastLine + 1 + 1) (more.map Parameter.block) ++ rest).head?,
        next.indent ≤ 8 := by
      cases more with
      | nil => exact fun next hnext => Nat.le_of_lt (hrest next hnext)
      | cons q others =>
        rintro _ ⟨⟩
        exact Nat.le_refl 8
    have hmore := ih (c := ⟨numbered (c.lastLine + 1 + 1) (more.map Parameter.block) ++ rest,
      c.lastLine + 1, c.verbatim⟩) rfl
    have hlast : c.lastLine + (p :: more).length = c.lastLine + 1 + more.length := by
      rw [List.length_cons]
      omega
    rw [hlast]
    exact .withToken p.isPlainKey p.token hlines hnext hmore

/-- Below a module stand its parameters. -/
theorem Step.parameters_node (s : Step)
    (hlines : c.lines = numbered (c.lastLine + 1) (s.parameters.map Parameter.block) ++ rest)
    (hrest : ∀ next ∈ rest.head?, next.indent < 8) :
    NodeAt c (.mapping ⟨c.lastLine + 1, 9⟩ (parameterEntries (c.lastLine + 1) s.parameters))
      { c with lines := rest, lastLine := c.lastLine + s.parameters.length } := by
  have hread := parameters_read s.parameters hlines hrest
  obtain ⟨p, more, hparameters⟩ := List.exists_cons_of_ne_nil s.nonempty
  rw [hparameters] at hlines
  have hends : endsKey (' ' :: p.written.toList) = true := rfl
  exact .mapping hlines (p.isPlainKey.isItem_append _) (p.isPlainKey.splitKey_eq hends) hread

/-- Behind the dash of a step stand its name and its module. -/
theorem Step.entries_read (s : Step) (last : Nat) (verbatim : List LineRange)
    (hrest : ∀ next ∈ rest.head?, next.indent ≤ 4) :
    EntriesAt 6
      ⟨⟨number, 6, s.head⟩ :: ⟨number + 1, 6, s.module.name.toList ++ [':']⟩ ::
        (numbered (number + 2) (s.parameters.map Parameter.block) ++ rest), last, verbatim⟩
      [s.titleEntry number, s.moduleEntry number]
      ⟨rest, number + 1 + s.parameters.length, verbatim⟩ := by
  have htoken := token_inQuotes s.isOrdinary_title
  rw [toList_inQuotes] at htoken
  have hparameters : NodeAt
      ⟨numbered (number + 2) (s.parameters.map Parameter.block) ++ rest, number + 1, verbatim⟩
      (.mapping ⟨number + 2, 9⟩ (parameterEntries (number + 2) s.parameters))
      ⟨rest, number + 1 + s.parameters.length, verbatim⟩ :=
    s.parameters_node rfl fun next hnext => Nat.lt_of_le_of_lt (hrest next hnext) (by decide)
  have hbelow : ∃ text, (numbered (number + 2) (s.parameters.map Parameter.block) ++ rest).head? =
      some ⟨number + 2, 8, text⟩ := by
    obtain ⟨p, ps, hps⟩ := List.exists_cons_of_ne_nil s.nonempty
    rw [hps]
    exact ⟨_, rfl⟩
  obtain ⟨text, hbelow⟩ := hbelow
  have hstop : ∀ line ∈ rest.head?, ¬(line.indent = 6 ∧ (splitKey line.text).isSome = true) := by
    rintro line hline ⟨hindent, -⟩
    have hle := hrest line hline
    omega
  have hmodule := EntriesAt.withNode
    (c := ⟨⟨number + 1, 6, s.module.name.toList ++ [':']⟩ ::
      (numbered (number + 2) (s.parameters.map Parameter.block) ++ rest), number, verbatim⟩)
    s.module.isPlainKey rfl hbelow (show 6 < 8 by decide) hparameters (.stop hstop)
  refine .withToken isPlainKey_name htoken rfl ?_ hmodule
  rintro _ ⟨⟩
  exact Nat.le_refl 6

/-- A step is an item, and the next line is read. -/
theorem Step.read (s : Step) (hlines : c.lines = numbered number s.blocks ++ rest)
    (hrest : ∀ next ∈ rest.head?, next.indent ≤ 4) {list : List (Item Node)}
    (more : ItemsAt 4 ⟨rest, number + 1 + s.parameters.length, c.verbatim⟩ list after) :
    ItemsAt 4 c (s.item number :: list) after := by
  have hends : endsKey (' ' :: '"' :: (s.title.toList ++ ['"'])) = true := rfl
  have hkey := isPlainKey_name.splitKey_eq hends
  have hitem : isItem s.head = false := isPlainKey_name.isItem_append _
  exact .withKey hlines (isPlainKey_name.starts.append _) (Option.isSome_of_eq_some hkey)
    (.mapping rfl hitem hkey (s.entries_read c.lastLine c.verbatim hrest)) more

theorem head?_logicalLines (number : Nat) (steps : List Step) :
    ∀ next ∈ (logicalLines number steps).head?, next.indent ≤ 4 := by
  cases steps with
  | nil => simp [logicalLines]
  | cons s rest =>
    rintro _ ⟨⟩
    exact Nat.le_refl 4

/-- The steps are read one after the other, up to the end of the text. -/
theorem steps_read {steps : List Step} (hne : steps ≠ [])
    (hlines : c.lines = logicalLines number steps) :
    ItemsAt 4 c (stepItems number steps)
      ⟨[], number + (stepLines steps).length - 1, c.verbatim⟩ := by
  induction steps generalizing number c with
  | nil => exact absurd rfl hne
  | cons s rest ih =>
    refine s.read hlines (head?_logicalLines _ rest) ?_
    cases rest with
    | nil =>
      have hlast : number + (stepLines [s]).length - 1 = number + 1 + s.parameters.length := by
        rw [stepLines, s.length_lines]
        omega
      rw [hlast]
      exact .stop (by simp [logicalLines])
    | cons next others =>
      have hlast : number + (stepLines (s :: next :: others)).length - 1 =
          number + s.parameters.length + 3 + (stepLines (next :: others)).length - 1 := by
        rw [stepLines, List.length_append, List.length_cons, s.length_lines]
        omega
      rw [hlast]
      exact ih (List.cons_ne_nil _ _) rfl

theorem length_sourceLines (steps : List Step) :
    3 + (stepLines steps).length - 1 = (sourceLines steps).length := by
  rw [sourceLines, List.length_append, show playLines.length = 2 from rfl]
  omega

theorem exists_logicalLines {steps : List Step} (hne : steps ≠ []) (number : Nat) :
    ∃ text more, logicalLines number steps = ⟨number, 4, '-' :: ' ' :: text⟩ :: more := by
  obtain ⟨s, rest, rfl⟩ := List.exists_cons_of_ne_nil hne
  exact ⟨_, _, rfl⟩

/-- The outline of the text of some steps. -/
theorem scan_text {steps : List Step} (hne : steps ≠ []) :
    Outline.scan (text steps).toList = ⟨outline steps, []⟩ := by
  obtain ⟨first, more, hlines⟩ := exists_logicalLines hne 3
  have hread := steps_read (c := ⟨logicalLines 3 steps, 2, []⟩) hne rfl
  rw [length_sourceLines steps] at hread
  have hsteps := NodeAt.sequence (c := ⟨logicalLines 3 steps, 2, []⟩) hlines rfl hread
  have hbelow : (logicalLines 3 steps).head? = some ⟨3, 4, '-' :: ' ' :: first⟩ := by rw [hlines]; rfl
  have hend : EntriesAt 2 ⟨[], (sourceLines steps).length, []⟩ []
      ⟨[], (sourceLines steps).length, []⟩ := .stop (by simp)
  have htasks := EntriesAt.withNode
    (c := ⟨⟨2, 2, "tasks".toList ++ [':']⟩ :: logicalLines 3 steps, 1, []⟩)
    isPlainKey_tasks rfl hbelow (show 2 < 4 by decide) hsteps hend
  have hends : endsKey (' ' :: "all".toList) = true := rfl
  have hkey := isPlainKey_hosts.splitKey_eq hends
  have hplay : EntriesAt 2
      ⟨⟨1, 2, "hosts".toList ++ ':' :: ' ' :: "all".toList⟩ ::
        ⟨2, 2, "tasks".toList ++ [':']⟩ :: logicalLines 3 steps, 0, []⟩
      [hostsEntry, tasksEntry steps] ⟨[], (sourceLines steps).length, []⟩ := by
    refine .withToken isPlainKey_hosts token_allHosts rfl ?_ htasks
    rintro _ ⟨⟩
    exact Nat.le_refl 2
  have hstop : ItemsAt 0 ⟨[], (sourceLines steps).length, []⟩ []
      ⟨[], (sourceLines steps).length, []⟩ := .stop (by simp)
  have hitems := ItemsAt.withKey (c := .ofText (text steps).toList) (ofText_toList_text steps)
    (isPlainKey_hosts.starts.append _) (Option.isSome_of_eq_some hkey)
    (.mapping rfl (isPlainKey_hosts.isItem_append _) hkey hplay) hstop
  exact scan_eq_of_nodeAt (.sequence (ofText_toList_text steps) rfl hitems)

end Reading

end PlaybookStyle.Conforming
