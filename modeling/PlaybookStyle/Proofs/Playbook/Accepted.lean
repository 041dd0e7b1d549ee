/-
What is known of a text that is accepted as a playbook.

Its outline is a sequence. So the first line that carries structure begins with a
dash or a tag, and the text cannot be that of an encrypted file
(`isEncryptedContent_eq_false`). And its first block comes first: every other part
on the walk stands behind the dash of that block (`visitsOfBlocks_first`).
-/

import PlaybookStyle.Proofs.Outline.Document
import PlaybookStyle.Proofs.Outline.First
import PlaybookStyle.Proofs.Outline.Nesting
import PlaybookStyle.Proofs.Outline.Scalars
import PlaybookStyle.Proofs.Playbook.Places

namespace PlaybookStyle.Playbook

open Text Outline

/-! ### Encrypted files -/

/-- The first character of a text that is no blank stands at the head of a line,
behind blank lines and blanks. -/
theorem exists_line_of_trimStart {c : Char} (hc : isBlank c = false) {text rest : List Char}
    (h : trimStart text = c :: rest) :
    ∃ before line after, splitLines text = before ++ line :: after ∧
      (∀ blank ∈ before, blank.all isBlank) ∧ ∃ more, trimStart line = c :: more := by
  induction text with
  | nil => cases h
  | cons d text ih =>
    by_cases hnewline : d = '\n'
    · subst hnewline
      rw [trimStart, if_pos (show isBlank '\n' = true from rfl)] at h
      obtain ⟨before, line, after, hlines, hbefore, hline⟩ := ih h
      refine ⟨[] :: before, line, after, ?_, ?_, hline⟩
      · rw [splitLines_newline, hlines]
        rfl
      · exact List.forall_mem_cons.mpr ⟨rfl, hbefore⟩
    · cases hblank : isBlank d with
      | true =>
        rw [trimStart, if_pos hblank] at h
        obtain ⟨before, line, after, hlines, hbefore, more, hline⟩ := ih h
        rw [splitLines, if_neg hnewline, hlines]
        cases before with
        | nil =>
          refine ⟨[], d :: line, after, rfl, hbefore, more, ?_⟩
          rw [trimStart, if_pos hblank, hline]
        | cons first others =>
          obtain ⟨hfirst, hothers⟩ := List.forall_mem_cons.mp hbefore
          refine ⟨(d :: first) :: others, line, after, rfl, ?_, more, hline⟩
          exact List.forall_mem_cons.mpr ⟨by rw [List.all_cons, hblank, hfirst]; rfl, hothers⟩
      | false =>
        rw [trimStart_of_not_isBlank hblank] at h
        obtain ⟨rfl, -⟩ := List.cons.inj h
        rw [splitLines, if_neg hnewline]
        cases splitLines text with
        | nil => exact ⟨[], [d], [], rfl, by simp, [], trimStart_of_not_isBlank hblank⟩
        | cons line lines =>
          exact ⟨[], d :: line, lines, rfl, by simp, line, trimStart_of_not_isBlank hblank⟩

theorem ofLines_blank_lines {before : List (List Char)} (h : ∀ blank ∈ before, blank.all isBlank)
    (number : Nat) (lines : List (List Char)) :
    LogicalLine.ofLines number (before ++ lines) =
      LogicalLine.ofLines (number + before.length) lines := by
  induction before generalizing number with
  | nil => rfl
  | cons blank rest ih =>
    obtain ⟨hblank, hrest⟩ := List.forall_mem_cons.mp h
    rw [List.cons_append, LogicalLine.ofLines, ofLine?_idle (.blank hblank), ih hrest,
      List.length_cons, Nat.add_assoc, Nat.add_comm 1]
    rfl

/-- A line that begins with a dollar sign carries structure. -/
theorem ofLine?_dollar {line more : List Char} (h : trimStart line = '$' :: more) (number : Nat) :
    ∃ found rest, LogicalLine.ofLine? number line = some found ∧ trimStart found.text = '$' :: rest := by
  have htrim : trimStart (trimEnd line) = '$' :: trimEnd more := by
    obtain ⟨blanks, hline, hblanks⟩ : ∃ blanks, line = blanks ++ '$' :: more ∧ blanks.all isBlank :=
      ⟨_, h ▸ (takeWhile_append_trimStart line).symm, isBlank_of_mem_takeWhile line⟩
    rw [hline, trimEnd_append_cons rfl, trimStart_append_of_all_isBlank hblanks,
      trimStart_of_not_isBlank rfl]
  refine ⟨⟨number, ((trimEnd line).takeWhile (· == ' ')).length,
    (trimEnd line).dropWhile (· == ' ')⟩, trimEnd more, ?_, ?_⟩
  · rw [LogicalLine.ofLine?_eq, htrim, if_neg (show ¬isAbsent ('$' :: _) = true from nofun), if_neg]
    simp [isDocumentMarker]
  · rw [trimStart_dropWhile_spaces, htrim]

/-- Such a line opens no sequence. -/
theorem not_sequence_of_dollar {c after : Cursor} {n : Node} {line : LogicalLine}
    {lines : List LogicalLine} {more : List Char} (found : NodeAt c n after)
    (h : c.lines = line :: lines) (hdollar : trimStart line.text = '$' :: more)
    (position : Position) (items : List (Item Node)) : n ≠ .sequence position items := by
  rintro rfl
  obtain ⟨first, rest, htext, hfirst⟩ :
      ∃ first rest, line.text = first :: rest ∧ (isBlank first = true ∨ first = '$') := by
    cases htext : line.text with
    | nil =>
      rw [htext] at hdollar
      cases hdollar
    | cons first rest =>
      refine ⟨first, rest, rfl, ?_⟩
      cases hblank : isBlank first with
      | true => exact .inl rfl
      | false =>
        rw [htext, trimStart_of_not_isBlank hblank] at hdollar
        exact .inr (List.cons.inj hdollar).1
  have hne : ∀ mark, isBlank mark = false → mark ≠ '$' → first ≠ mark := by
    rintro mark hblank hmark rfl
    rcases hfirst with h | h
    · rw [hblank] at h
      cases h
    · exact hmark h
  cases found with
  | sequence h' hitem =>
    obtain ⟨rfl, -⟩ := List.cons.inj (h.symm.trans h')
    obtain ⟨tail, htail⟩ := exists_eq_cons_of_isItem hitem
    exact hne '-' rfl (by decide) (List.cons.inj (htext.symm.trans htail)).1
  | value h' _ _ found =>
    obtain ⟨rfl, -⟩ := List.cons.inj (h.symm.trans h')
    have hproperty : ¬(first = '!' ∨ first = '&') :=
      not_or.mpr ⟨hne '!' rfl (by decide), hne '&' rfl (by decide)⟩
    rw [htext] at found
    cases found with
    | deeper habsent =>
      rw [skipProperties_of_ne hproperty] at habsent
      exact hne '#' rfl (by decide) (beq_iff_eq.mp habsent)

/-- A text whose outline is a sequence is not that of an encrypted file. -/
theorem isEncryptedContent_eq_false {content : String} {position : Position}
    {items : List (Item Node)} (root : (Outline.scan content.toList).root = .sequence position items) :
    isEncryptedContent content = false := by
  by_contra hencrypted
  rw [Bool.not_eq_false, isEncryptedContent, List.isPrefixOf_iff_prefix] at hencrypted
  obtain ⟨more, hmore⟩ := hencrypted
  have hdollar : trimStart content.toList = '$' :: ("ANSIBLE_VAULT;".toList ++ more) := hmore.symm
  obtain ⟨before, line, after, hlines, hbefore, rest, hline⟩ :=
    exists_line_of_trimStart (by decide) hdollar
  obtain ⟨found, tail, hfound, htail⟩ := ofLine?_dollar hline (1 + before.length)
  have hhead : (Cursor.ofText content.toList).lines =
      found :: LogicalLine.ofLines (1 + before.length + 1) after := by
    rw [Cursor.ofText, LogicalLine.ofText, hlines, ofLines_blank_lines hbefore,
      LogicalLine.ofLines, hfound]
    rfl
  exact not_sequence_of_dollar (node_at (.ofText content.toList)) hhead htail position items root

/-- A text that is built into a playbook is loaded as that playbook. -/
theorem load_eq_of_build {path content : String} {value : Yaml.Value} {playbook : Playbook}
    (read : Yaml.Value.read content = .ok value)
    (build : Playbook.build path content.toList value = .ok playbook) :
    Playbook.load path content = .ok playbook := by
  obtain ⟨-, items, position, root, -⟩ := exists_blocksOf_of_build build
  rw [Playbook.load, isEncryptedContent_eq_false root, Playbook.parse, read]
  simp only [build]
  rfl

theorem load_of_parse {path content : String} {playbook : Playbook}
    (parsed : Playbook.parse path content = .ok playbook) :
    Playbook.load path content = .ok playbook := by
  obtain ⟨value, read, build⟩ := exists_read_of_parse parsed
  exact load_eq_of_build read build

/-! ### The first block -/

section First

variable {P : Position → Prop} {source : SourceLines}

/-- Where the dash of an include stands says nothing about what is inside it. -/
theorem Include.visits_partsAt {keywords : List String} {item : Item Node} {i : Include}
    (place : Position) (hplace : P place) (value : item.value.Everywhere P)
    (h : Include.ofItem? source keywords item = some i) : PartsAt P i.visits := by
  have hmoved : Include.ofItem? source keywords { item with position := place } =
      some { i with position := place, blankLinesBefore := source.blankLinesBefore place.line } := by
    simp only [Include.ofItem?, Option.bind_eq_bind, Option.bind_eq_some_iff, Option.pure_def] at h ⊢
    obtain ⟨entries, hentries, found, hfound, target, htarget, hi⟩ := h
    obtain rfl := Option.some.inj hi
    exact ⟨entries, hentries, found, hfound, target, htarget, rfl⟩
  exact (@Include.ofItem?_everywhere P source _ { item with position := place } _ hplace value
    hmoved).2

/-- Nor does the place of the dash of a block. -/
theorem Block.visits_partsAt {value : Yaml.Value} {item : Item Node} {block : Block}
    (place : Position) (hplace : P place) (hvalue : item.value.Everywhere P)
    (h : Block.ofItem source value item = .ok block) : PartsAt P block.visits := by
  obtain ⟨-, ⟨-, rfl⟩ | ⟨-, i, hinclude, rfl⟩⟩ := Block.ofItem_cases h
  · exact (@Play.ofItem_everywhere P source { item with position := place } hplace hvalue).2
  · exact Include.visits_partsAt place hplace hvalue hinclude

/-- **The first block comes first.** On the walk over the blocks of a text, a part
that stands at the very start of the text is the first block. -/
theorem visitsOfBlocks_first {path : String} {text : List Char} {value : Yaml.Value}
    {playbook : Playbook} (build : Playbook.build path text value = .ok playbook) :
    ∀ visit ∈ visitsOfBlocks none playbook.blocks,
      visit.part.Everywhere (· ≠ .start) ∨
        visit.previous? = none ∧ ∃ block : Block, visit.part = block.part := by
  obtain ⟨-, items, position, root, values, -, hblocks⟩ := exists_blocksOf_of_build build
  obtain ⟨first, rest, rfl, hline, hcolumn, hvalue, hpositions, hvalues⟩ :=
    scan_first_comes_first root
  have hbefore : ∀ place, first.position.Before place → place ≠ .start := by
    rintro _ hplace rfl
    simp only [Position.Before, Position.start] at hplace
    omega
  cases values with
  | nil =>
    rw [← Except.ok.inj hblocks]
    simp [visitsOfBlocks]
  | cons value values =>
    rw [blocksOf] at hblocks
    cases hfirst : Block.ofItem (.ofText text) value first with
    | error e =>
      rw [hfirst] at hblocks
      cases hblocks
    | ok block =>
      cases hrest : blocksOf (.ofText text) values rest with
      | error e =>
        rw [hfirst, hrest] at hblocks
        cases hblocks
      | ok blocks =>
        rw [hfirst, hrest] at hblocks
        rw [← Except.ok.inj hblocks, visitsOfBlocks, List.forall_mem_cons, List.forall_mem_append]
        refine ⟨.inr ⟨rfl, block, rfl⟩, fun visit hvisit => .inl ?_, fun visit hvisit => .inl ?_⟩
        · exact Block.visits_partsAt ⟨2, 1⟩ (by decide) (hvalue.imp hbefore) hfirst visit hvisit
        · refine visitsOfBlocks_partsAt (blocksOf_everywhere ?_ ?_ hrest) _ visit hvisit
          · exact fun item hitem => hbefore _ (hpositions item hitem)
          · exact fun item hitem => (hvalues item hitem).imp hbefore

end First

end PlaybookStyle.Playbook
