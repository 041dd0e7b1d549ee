/-
The playbook of a text with another text behind it.

The blocks of both texts are built as from each text alone, those of the second
at moved lines (`build_append`). The number of blank lines before a part stays, as
long as a line with content stands before the part in its own text; before the
first block of the second text the count goes on into the first text. That is what
the two relocations say. On the walk only one thing changes: the first block of
the second text has a block before it (`visitsOfBlocks_append`).
-/

import PlaybookStyle.Proofs.Outline.Appending
import PlaybookStyle.Proofs.Playbook.Moving
import PlaybookStyle.Proofs.Text.Trimming

namespace PlaybookStyle

open Text Outline

/-! ### Blank lines -/

section BlankLines

open SourceLines

/-- A line with content ends the count of blank lines. -/
theorem blankLinesAbove_append {above : List (List Char)}
    (h : ∃ line ∈ above, isAbsent (trim line) = false) (rest : List (List Char)) :
    blankLinesAbove (above ++ rest) = blankLinesAbove above := by
  induction above with
  | nil =>
    obtain ⟨line, hline, -⟩ := h
    cases hline
  | cons first more ih =>
    rw [List.cons_append, blankLinesAbove, blankLinesAbove]
    split
    · rename_i hblank
      rw [ih ?_]
      obtain ⟨line, hline, hcontent⟩ := h
      rcases List.mem_cons.mp hline with rfl | hline
      · rw [hblank] at hcontent
        cases hcontent
      · exact ⟨line, hline, hcontent⟩
    · rename_i hcomment
      rw [ih ?_]
      obtain ⟨line, hline, hcontent⟩ := h
      rcases List.mem_cons.mp hline with rfl | hline
      · rw [hcomment] at hcontent
        cases hcontent
      · exact ⟨line, hline, hcontent⟩
    · rfl

/-- Before the lines of a text nothing changes behind them. -/
theorem blankLinesBefore_left (a b : List (List Char)) {n : Nat} (hn : n ≤ a.length + 1) :
    (SourceLines.mk (a ++ b)).blankLinesBefore n = (SourceLines.mk a).blankLinesBefore n := by
  unfold SourceLines.blankLinesBefore size
  rw [if_pos (by simp only [List.length_append]; omega), if_pos (by dsimp only; omega)]
  dsimp only
  rw [List.take_append_of_le_length (by omega)]

/-- Behind a line with content nothing changes before it. -/
theorem blankLinesBefore_right (a b : List (List Char)) {n : Nat} (hn : 0 < n)
    (h : ∃ line ∈ b.take (n - 1), isAbsent (trim line) = false) :
    (SourceLines.mk (a ++ b)).blankLinesBefore (n + a.length) =
      (SourceLines.mk b).blankLinesBefore n := by
  have hlines : (a ++ b).take (n + a.length - 1) = a ++ b.take (n - 1) := by
    rw [List.take_append, List.take_of_length_le (by omega)]
    congr 2
    omega
  have habove : ∃ line ∈ (b.take (n - 1)).reverse, isAbsent (trim line) = false := by
    obtain ⟨line, hline, hcontent⟩ := h
    exact ⟨line, List.mem_reverse.mpr hline, hcontent⟩
  unfold SourceLines.blankLinesBefore size
  dsimp only
  rw [hlines, List.reverse_append, blankLinesAbove_append habove, List.length_append]
  by_cases hsize : n - 1 ≤ b.length
  · rw [if_pos hsize, if_pos (by omega)]
  · rw [if_neg hsize, if_neg (by omega)]

end BlankLines

/-! ### Places behind one another -/

section Places

variable {a b : List Char} {first second : Nat} {items others : List (Item Node)}

/-- The lines of a text with another one behind it stay; only the blank lines
before lines of the other are others. -/
def Relocation.front (a b : List Char) : Relocation where
  line := id
  blank n count :=
    if n ≤ (splitLines a).length then count else (SourceLines.ofText (a ++ b)).blankLinesBefore n

/-- The lines of a text behind another one move; up to the first line with a dash,
the blank lines before them are others. -/
def Relocation.behind (a b : List Char) (second : Nat) : Relocation where
  line := (· + (splitLines a).length)
  blank n count :=
    if second < n then count
    else (SourceLines.ofText (a ++ b)).blankLinesBefore (n + (splitLines a).length)

theorem ofText_append (newline : a.getLast? = some '\n') (b : List Char) :
    SourceLines.ofText (a ++ b) =
      ⟨(SourceLines.ofText a).lines ++ (SourceLines.ofText b).lines⟩ := by
  rw [SourceLines.ofText, splitLines_append newline, List.map_append]
  rfl

theorem Relocation.front_fits (newline : a.getLast? = some '\n') (b : List Char) :
    (front a b).Fits (.ofText a) (.ofText (a ++ b)) := by
  intro n
  by_cases hn : n ≤ (splitLines a).length
  · have hlength : (SourceLines.ofText a).lines.length = (splitLines a).length := List.length_map _
    simp only [front, if_pos hn, id_eq]
    rw [ofText_append newline]
    exact blankLinesBefore_left _ _ (by omega)
  · simp only [front, if_neg hn, id_eq]

theorem Relocation.behind_fits (newline : a.getLast? = some '\n')
    (root : (Outline.scan b).root = .sequence ⟨second, 1⟩ others) :
    (behind a b second).Fits (.ofText b) (.ofText (a ++ b)) := by
  intro n
  by_cases hn : second < n
  · obtain ⟨-, line, rest, hlines, -, rfl, -⟩ := (node_at (.ofText b)).items_at_margin root
    have hline : line ∈ LogicalLine.ofLines 1 (splitLines b) := by
      rw [show LogicalLine.ofLines 1 (splitLines b) = line :: rest from hlines]
      exact List.mem_cons_self
    obtain ⟨i, cut, hnumber, hcut, hread⟩ := exists_of_mem_ofLines hline
    have hlength : (SourceLines.ofText a).lines.length = (splitLines a).length := List.length_map _
    simp only [behind, if_pos hn]
    rw [ofText_append newline, ← hlength]
    refine blankLinesBefore_right _ _ (by omega) ⟨_, ?_, isAbsent_trim_of_ofLine? hread⟩
    have hshown : (SourceLines.ofText b).lines[i]? = some (trimEndOf (· == '\r') cut) := by
      rw [SourceLines.ofText, List.getElem?_map, hcut]
      rfl
    refine List.mem_iff_getElem?.mpr ⟨i, ?_⟩
    rw [List.getElem?_take_of_lt (by omega), hshown]
  · simp only [behind, if_neg hn]

end Places

/-! ### The playbook -/

namespace Outline

mutual

theorem Node.moved_id : ∀ n : Node, n.moved id = n
  | .mapping position entries => by
    rw [Node.moved, entriesMoved_id]
    rfl
  | .sequence position items => by
    rw [Node.moved, itemsMoved_id]
    rfl
  | .scalar s => by
    rw [Node.moved]
    rfl
  | .empty => by rw [Node.moved]

theorem entriesMoved_id : ∀ entries : List (Entry Node), entriesMoved id entries = entries
  | [] => by rw [entriesMoved]
  | entry :: rest => by rw [entriesMoved, entryMoved_id, entriesMoved_id]

theorem entryMoved_id : ∀ entry : Entry Node, entryMoved id entry = entry
  | ⟨key, position, spacing, value, endLine⟩ => by
    rw [entryMoved, Node.moved_id]
    rfl

theorem itemsMoved_id : ∀ items : List (Item Node), itemsMoved id items = items
  | [] => by rw [itemsMoved]
  | item :: rest => by rw [itemsMoved, itemMoved_id, itemsMoved_id]

theorem itemMoved_id : ∀ item : Item Node, itemMoved id item = item
  | ⟨position, value, endLine⟩ => by
    rw [itemMoved, Node.moved_id]
    rfl

end

end Outline

namespace Playbook

/-- Blocks of items are built one after the other. -/
theorem blocksOf_append {source : SourceLines} {values more : List Yaml.Value}
    {items others : List (Item Node)} {blocks rest : List Block}
    (length : items.length = values.length) (h : blocksOf source values items = .ok blocks)
    (hrest : blocksOf source more others = .ok rest) :
    blocksOf source (values ++ more) (items ++ others) = .ok (blocks ++ rest) := by
  induction values generalizing items blocks with
  | nil =>
    obtain rfl := List.eq_nil_of_length_eq_zero length
    obtain rfl := Except.ok.inj h
    exact hrest
  | cons value values ih =>
    cases items with
    | nil => cases length
    | cons item items =>
      rw [blocksOf] at h
      rw [List.cons_append, List.cons_append, blocksOf]
      cases hblock : Block.ofItem source value item with
      | error problem =>
        rw [hblock] at h
        cases h
      | ok block =>
        cases hblocks : blocksOf source values items with
        | error problem =>
          rw [hblock, hblocks] at h
          cases h
        | ok found =>
          rw [hblock, hblocks] at h
          obtain rfl := Except.ok.inj h
          have hall := ih (Nat.succ.inj length) hblocks
          simp only [hall, bind, Except.bind, pure, Except.pure, List.cons_append]

section Build

variable {a b : List Char} {first second : Nat} {items others : List (Item Node)} {path : String}
  {values more : List Yaml.Value} {p q : Playbook}

/-- The playbook of a text with the playbook of the text behind it. -/
def joined (a b : List Char) (second : Nat) (p q : Playbook) : Playbook where
  path := p.path
  blocks := p.blocks.map (Block.moved (.front a b)) ++ q.blocks.map (Block.moved (.behind a b second))
  source := .ofText (a ++ b)
  verbatim := p.verbatim ++ q.verbatim.map (LineRange.moved (· + (splitLines a).length))
  encrypted := false

/-- **The playbooks of two texts behind one another.** If all lines of the first
are passed, both playbooks are built. -/
theorem build_append (joins : Joins a b first second items others)
    (passed : (node (.ofText a)).1.2.lines = [])
    (build : Playbook.build path a (.sequence values) = .ok p)
    (build' : Playbook.build path b (.sequence more) = .ok q) :
    Playbook.build path (a ++ b) (.sequence (values ++ more)) = .ok (joined a b second p q) := by
  obtain ⟨hlength, hblocks, hp⟩ := exists_blocksOf_of_build_sequence joins.root build
  obtain ⟨hlength', hblocks', hq⟩ := exists_blocksOf_of_build_sequence joins.root_behind build'
  have hfront := blocksOf_moved (Relocation.front_fits joins.newline b) values items
  have hbehind := blocksOf_moved (Relocation.behind_fits joins.newline joins.root_behind) more others
  have hstay : items.map (itemMoved (Relocation.front a b).line) = items := by
    rw [← itemsMoved_eq_map]
    exact itemsMoved_id items
  rw [hblocks, hstay] at hfront
  rw [hblocks'] at hbehind
  have hall := blocksOf_append hlength hfront hbehind
  simp only [Playbook.build, joins.scan_append passed, List.length_append, List.length_map, hlength,
    hlength', if_pos]
  rw [show (· + (splitLines a).length) = (Relocation.behind a b second).line from rfl, hall]
  rw [joined, hp, hq]
  rfl

/-- **Lines left over.** If not all lines of the first text are passed, its outline
and the values do not match, and the two texts are refused. -/
theorem build_append_of_left_over (joins : Joins a b first second items others)
    (leftOver : (node (.ofText a)).1.2.lines ≠ [])
    (build : Playbook.build path a (.sequence values) = .ok p)
    (build' : Playbook.build path b (.sequence more) = .ok q) :
    Playbook.build path (a ++ b) (.sequence (values ++ more)) = .error .layoutDiffers := by
  obtain ⟨hlength, -⟩ := exists_blocksOf_of_build_sequence joins.root build
  obtain ⟨hlength', -⟩ := exists_blocksOf_of_build_sequence joins.root_behind build'
  have hsome : 0 < others.length := by
    obtain ⟨hothers, line, rest, hlines, hindent, -, hitem⟩ :=
      (node_at (.ofText b)).items_at_margin joins.root_behind
    obtain ⟨item, hhead, -⟩ :=
      Option.map_eq_some_iff.mp (hothers.head_position hlines hindent hitem)
    exact List.length_pos_of_mem (List.mem_of_mem_head? hhead)
  simp only [Playbook.build, joins.scan_append_of_left_over leftOver, List.length_append]
  rw [if_neg (by omega)]
  rfl

end Build

/-! ### The walk -/

/-- The walk over blocks and more blocks: the first of these comes behind the last
of the others. -/
theorem visitsOfBlocks_append (previous? : Option Part) (blocks more : List Block) :
    visitsOfBlocks previous? (blocks ++ more) =
      visitsOfBlocks previous? blocks ++
        visitsOfBlocks ((blocks.getLast?.map Block.part).or previous?) more := by
  induction blocks generalizing previous? with
  | nil => rfl
  | cons block rest ih =>
    rw [List.cons_append, visitsOfBlocks, visitsOfBlocks, ih, List.cons_append, List.append_assoc]
    cases rest with
    | nil => rfl
    | cons next rest =>
      rw [List.getLast?_cons_cons]
      have hlast : ((next :: rest).getLast?.map Block.part).or (some block.part) =
          ((next :: rest).getLast?.map Block.part).or previous? := by
        rw [List.getLast?_cons]
        rfl
      rw [hlast]

end Playbook

end PlaybookStyle
