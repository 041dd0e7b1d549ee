/-
The logical lines of a document are the lines of its block.

Every line of a rendered block is a logical line as it stands (`Rendered.solid`);
lines without structure, and blanks behind a line, leave no trace. Together with
`Rendered.read` this says how the text of a document is read (`Document.read`).
-/

import PlaybookStyle.Proofs.Outline.Rendered

namespace PlaybookStyle.Outline

open Text

/-! ### Trimming -/

/-- Blanks behind a text that closes are cut off, and nothing else. -/
theorem Closes.trimEnd_append {text : List Char} (h : Closes text) (before : List Char)
    {blanks : List Char} (hblanks : blanks.all isBlank) :
    trimEnd (before ++ text ++ blanks) = before ++ text := by
  obtain ⟨init, c, rfl, hc⟩ := h
  have hshape : before ++ (init ++ [c]) ++ blanks = before ++ init ++ c :: blanks := by simp
  rw [hshape, trimEnd_append_cons hc, trimEnd_of_all_isBlank hblanks, List.append_assoc]

/-! ### Ends of lines -/

theorem Closes.append {text : List Char} (h : Closes text) (before : List Char) :
    Closes (before ++ text) := by
  obtain ⟨init, c, rfl, hc⟩ := h
  exact ⟨before ++ init, c, by simp, hc⟩

theorem closes_append_singleton {c : Char} (h : isBlank c = false) (before : List Char) :
    Closes (before ++ [c]) := ⟨before, c, rfl, h⟩

/-- What closes still closes with a note behind it. -/
theorem Note.closes {note text : List Char} (h : Note note) (htext : Closes text) :
    Closes (text ++ note) := by
  cases h with
  | nothing => rwa [List.append_nil]
  | comment hcomment => exact (hcomment.append (gap _)).append text

/-! ### Lines -/

theorem ofLine?_idle {line : List Char} (h : IsIdle line) (number : Nat) :
    LogicalLine.ofLine? number line = none := by
  unfold LogicalLine.ofLine?
  dsimp only
  cases h with
  | blank h =>
    rw [trimEnd_of_all_isBlank h]
    rfl
  | comment h =>
    rw [trimEnd_append_cons (by decide), trimStart_append_of_all_isBlank h,
      trimStart_of_not_isBlank (by decide)]
    rfl
  | directive =>
    have hshape : ∀ text, "%YAML".toList ++ text = "%YAM".toList ++ 'L' :: text := fun _ => rfl
    rw [hshape, trimEnd_append_cons (by decide)]
    rfl
  | start hnote h =>
    have hcloses : Closes "---".toList := ⟨['-', '-'], '-', rfl, by decide⟩
    have htrim := (hnote.closes hcloses).trimEnd_append [] h
    rw [List.nil_append] at htrim
    rw [htrim]
    cases hnote with
    | nothing => rfl
    | comment _ => rfl
  | stop h =>
    have hcloses : Closes "...".toList := ⟨['.', '.'], '.', rfl, by decide⟩
    have htrim := hcloses.trimEnd_append [] h
    rw [List.nil_append] at htrim
    rw [htrim]
    rfl

theorem ofLine?_block {b : BlockLine} (h : b.Solid) {blanks : List Char}
    (hblanks : blanks.all isBlank) (number : Nat) :
    LogicalLine.ofLine? number (List.replicate b.indent ' ' ++ b.text ++ blanks) =
      some ⟨number, b.indent, b.text⟩ := by
  obtain ⟨c, rest, htext, hc, hcomment⟩ := h.starts
  have hspace : (c == ' ') = false := by
    refine beq_eq_false_iff_ne.mpr ?_
    rintro rfl
    cases hc
  have htake : (List.replicate b.indent ' ' ++ b.text).takeWhile (· == ' ') =
      List.replicate b.indent ' ' := by
    rw [htext, List.takeWhile_append_of_pos (by simp), List.takeWhile_cons, hspace]
    simp
  have hdrop : (List.replicate b.indent ' ' ++ b.text).dropWhile (· == ' ') = b.text := by
    rw [htext, List.dropWhile_append_of_pos (by simp), List.dropWhile_cons, hspace]
    rfl
  have htrim : trimStart (List.replicate b.indent ' ' ++ b.text) = c :: rest := by
    rw [trimStart_append_of_all_isBlank (by simp [show isBlank ' ' = true by decide]), htext]
    exact trimStart_of_not_isBlank hc
  unfold LogicalLine.ofLine?
  rw [h.closes.trimEnd_append _ hblanks]
  dsimp only
  rw [htake, hdrop, htrim, List.length_replicate]
  have hmarker : ¬(b.indent = 0 && isDocumentMarker (c :: rest)) = true := by
    rw [← htext]
    intro hboth
    obtain ⟨hindent, hmarker⟩ := Bool.and_eq_true_iff.mp hboth
    rw [h.marker (of_decide_eq_true hindent)] at hmarker
    cases hmarker
  split
  · rename_i heq
    cases heq
  · rename_i heq
    exact absurd (List.cons.inj heq).1 hcomment
  · exact if_neg hmarker

/-- The logical lines among source lines are those of the block. -/
theorem Document.logicalLines {blocks : List BlockLine} {lines : List (List Char)}
    (h : Document blocks lines) (solid : ∀ b ∈ blocks, b.Solid) (number : Nat) :
    (LogicalLine.ofLines number lines).map LogicalLine.block = blocks := by
  induction h generalizing number with
  | nil => rfl
  | idle hidle _ ih =>
    rw [LogicalLine.ofLines, ofLine?_idle hidle]
    exact ih solid _
  | block hblanks _ ih =>
    rw [LogicalLine.ofLines, ofLine?_block (solid _ List.mem_cons_self) hblanks]
    exact congrArg _ (ih (fun b hb => solid b (List.mem_cons_of_mem _ hb)) _)

/-! ### Rendered blocks -/

section Solid

variable {α : Type} {W : Writing α}

theorem Writing.Lead.closes (legible : W.Legible) {lead text : List Char} (h : W.Lead lead)
    (htext : Closes text) : Closes (text ++ lead) := by
  cases h with
  | note hnote => exact hnote.closes htext
  | properties h => exact ((legible.properties_closes h).append (gap _)).append text

theorem closes_key (written : List Char) : Closes (written ++ [':']) :=
  closes_append_singleton (by decide) written

theorem solid_key_line (legible : W.Legible) {key written rest : List Char}
    (hkey : W.key key written) (hcloses : Closes (written ++ ':' :: rest)) (k : Nat) :
    BlockLine.Solid ⟨k, written ++ ':' :: rest⟩ :=
  ⟨(legible.key_starts hkey).append _, hcloses, fun _ => legible.key_marker _ hkey⟩

theorem solid_dash_line {rest : List Char} (hitem : isItem ('-' :: rest) = true)
    (hcloses : Closes ('-' :: rest)) (k : Nat) : BlockLine.Solid ⟨k, '-' :: rest⟩ := by
  refine ⟨⟨'-', rest, rfl, by decide, by decide⟩, hcloses, fun _ => ?_⟩
  unfold isItem at hitem
  split at hitem
  · rename_i heq
    obtain rfl := (List.cons.inj heq).2
    rfl
  · rename_i heq
    obtain rfl := (List.cons.inj heq).2
    rfl
  · cases hitem

mutual

theorem Rendered.solid (legible : W.Legible) {tree : Tree α} {k : Nat} {blocks : List BlockLine} :
    Rendered W tree k blocks → ∀ b ∈ blocks, b.Solid
  | .mapping _ h => h.solid legible
  | .sequence _ h => h.solid legible

theorem RenderedBelow.solid (legible : W.Legible) {tree : Tree α} {k : Nat}
    {blocks : List BlockLine} : RenderedBelow W tree k blocks → ∀ b ∈ blocks, b.Solid
  | .leaf deeper h => by
    obtain ⟨hcloses, hbelow⟩ := legible.below_solid h deeper
    intro b hb
    rcases List.mem_cons.mp hb with rfl | hb
    · exact ⟨(legible.below_opens h).starts, hcloses,
        fun hzero => absurd hzero (Nat.ne_of_gt (Nat.zero_lt_of_lt deeper))⟩
    · exact hbelow b hb
  | .block _ h => h.solid legible

theorem RenderedEntries.solid (legible : W.Legible) {entries : List (List Char × Tree α)} {k : Nat}
    {blocks : List BlockLine} : RenderedEntries W entries k blocks → ∀ b ∈ blocks, b.Solid
  | .nil => by simp
  | .cons first others => by
    intro b hb
    rcases List.mem_append.mp hb with hb | hb
    · exact first.solid legible b hb
    · exact others.solid legible b hb

theorem RenderedEntry.solid (legible : W.Legible) {entry : List Char × Tree α} {k : Nat}
    {blocks : List BlockLine} : RenderedEntry W entry k blocks → ∀ b ∈ blocks, b.Solid
  | .nothing hkey hlead => by
    intro b hb
    rw [List.mem_singleton.mp hb]
    refine solid_key_line legible hkey ?_ _
    simpa using hlead.closes legible (closes_key _)
  | .leaf hkey h => by
    obtain ⟨hcloses, hbelow⟩ := legible.inline_solid h
    intro b hb
    rcases List.mem_cons.mp hb with rfl | hb
    · exact solid_key_line legible hkey ((hcloses.append (':' :: gap _)).append _) _
    · exact hbelow b hb
  | .deeper hkey hlead h => by
    intro b hb
    rcases List.mem_cons.mp hb with rfl | hb
    · refine solid_key_line legible hkey ?_ _
      simpa using hlead.closes legible (closes_key _)
    · exact h.solid legible b hb
  | .flat hkey hnote _ h => by
    intro b hb
    rcases List.mem_cons.mp hb with rfl | hb
    · refine solid_key_line legible hkey ?_ _
      simpa using hnote.closes (closes_key _)
    · exact h.solid legible b hb

theorem RenderedItems.solid (legible : W.Legible) {items : List (Tree α)} {k : Nat}
    {blocks : List BlockLine} : RenderedItems W items k blocks → ∀ b ∈ blocks, b.Solid
  | .nil => by simp
  | .cons first others => by
    intro b hb
    rcases List.mem_append.mp hb with hb | hb
    · exact first.solid legible b hb
    · exact others.solid legible b hb

theorem RenderedItem.solid (legible : W.Legible) {item : Tree α} {k : Nat}
    {blocks : List BlockLine} : RenderedItem W item k blocks → ∀ b ∈ blocks, b.Solid
  | .nothing hlead => by
    intro b hb
    rw [List.mem_singleton.mp hb]
    exact solid_dash_line hlead.isItem
      (hlead.closes legible (closes_append_singleton (by decide) [])) _
  | .leaf h => by
    obtain ⟨hcloses, hbelow⟩ := legible.inline_solid h
    intro b hb
    rcases List.mem_cons.mp hb with rfl | hb
    · exact solid_dash_line (isItem_dash_gap _ _) (hcloses.append ('-' :: gap _)) _
    · exact hbelow b hb
  | .compact h => by
    have hsolid := h.solid legible
    intro b hb
    rcases List.mem_cons.mp hb with rfl | hb
    · have hcloses := (hsolid _ List.mem_cons_self).closes
      exact solid_dash_line (isItem_dash_gap _ _) (hcloses.append ('-' :: gap _)) _
    · exact hsolid b (List.mem_cons_of_mem _ hb)
  | .deeper hlead h => by
    intro b hb
    rcases List.mem_cons.mp hb with rfl | hb
    · exact solid_dash_line hlead.isItem
        (hlead.closes legible (closes_append_singleton (by decide) [])) _
    · exact h.solid legible b hb

end

/-- A document is read as the tree it renders, if all leaves go on straight; if
one does not, reading ends at a line of the document. -/
theorem Document.read (legible : W.Legible) {source : List Char} {tree : Tree α} {k : Nat}
    {blocks : List BlockLine} (rendered : Rendered W tree k blocks)
    (document : Document blocks (splitLines source)) :
    ∃ n after, NodeAt (.ofText source) n after ∧
      (tree.All W.straight → n.tree W.view = tree) ∧ Ends (tree.All W.straight) k [] after := by
  have hblocks := document.logicalLines (rendered.solid legible) 1
  refine rendered.read legible _ (LogicalLine.ofText source) [] ?_ hblocks (by simp)
  rw [List.append_nil, Cursor.ofText]

end Solid

end PlaybookStyle.Outline
