/-
Outlines of sources with one key written anew.

Every entry of an outline is read from a line of the source, perhaps behind dashes, and
no two entries from one line (`scan_openings`). So a place tells its entry. If the text
from that place on is replaced by another with a key (`Rewriting.Rewrites`), then the
lines with structure are the same but for that one (`Rewrites.ahead`), and the outline
is the old one with that entry replaced (`scan_rewritten`).
-/

import Mathlib.Data.List.Nodup
import PlaybookStyle.Proofs.Outline.Rewriting

namespace PlaybookStyle.Outline

open Text

/-! ### Lines that open entries -/

/-- A line and what is left of it behind some of its dashes. -/
inductive LogicalLine.Leads : LogicalLine → LogicalLine → Prop
  | here {line : LogicalLine} : Leads line line
  | behind {line inner : LogicalLine} (item : isItem line.text = true)
      (present : isAbsent line.item = false) (leads : Leads line.behindDash inner) :
      Leads line inner

theorem LogicalLine.Leads.behindDash {top line : LogicalLine} (h : top.Leads line)
    (item : isItem line.text = true) (present : isAbsent line.item = false) :
    top.Leads line.behindDash := by
  induction h with
  | here => exact .behind item present .here
  | behind first presentFirst _ ih => exact .behind first presentFirst (ih item present)

theorem LogicalLine.Leads.number_eq {top line : LogicalLine} (h : top.Leads line) :
    line.number = top.number := by
  induction h with
  | here => rfl
  | behind _ _ _ ih => exact ih

/-- Each line left is a line of the source, perhaps behind dashes. -/
def Cursor.Led (source : List Char) (c : Cursor) : Prop :=
  ∀ line ∈ c.lines, ∃ top ∈ LogicalLine.ofText source, top.Leads line

/-- The entry is read from a line of the source, perhaps behind dashes. -/
def Entry.Opened (source : List Char) (e : Entry Node) : Prop :=
  ∃ top ∈ LogicalLine.ofText source, ∃ line split, top.Leads line ∧
    splitKey line.text = some split ∧ e.position = line.place ∧
    e.key = String.ofList split.key ∧ e.spacing = split.spacing

/-- Entries that are read from the source, each from a later line than the one before. -/
structure Openings (source : List Char) (entries : List (Entry Node)) : Prop where
  opened : ∀ e ∈ entries, e.Opened source
  lines : (entries.map (·.position.line)).Pairwise (· < ·)

namespace Openings

variable {source : List Char} {entries more : List (Entry Node)} {e other : Entry Node}

theorem nil : Openings source [] := ⟨by simp, .nil⟩

theorem append (h : Openings source entries) (hmore : Openings source more) (last : Nat)
    (before : ∀ e ∈ entries, e.position.line ≤ last) (behind : ∀ e ∈ more, last < e.position.line) :
    Openings source (entries ++ more) := by
  refine ⟨fun e he => ?_, ?_⟩
  · exact (List.mem_append.mp he).elim (h.opened e) (hmore.opened e)
  · rw [List.map_append]
    refine List.pairwise_append.mpr ⟨h.lines, hmore.lines, ?_⟩
    intro a ha b hb
    obtain ⟨e, he, rfl⟩ := List.mem_map.mp ha
    obtain ⟨other, hother, rfl⟩ := List.mem_map.mp hb
    exact Nat.lt_of_le_of_lt (before e he) (behind other hother)

theorem cons (opened : e.Opened source) (h : Openings source entries)
    (behind : ∀ other ∈ entries, e.position.line < other.position.line) :
    Openings source (e :: entries) := by
  refine ⟨List.forall_mem_cons.mpr ⟨opened, h.opened⟩, ?_⟩
  rw [List.map_cons]
  refine List.pairwise_cons.mpr ⟨?_, h.lines⟩
  intro line hline
  obtain ⟨other, hother, rfl⟩ := List.mem_map.mp hline
  exact behind other hother

/-- A line tells its entry. -/
theorem eq_of_line (h : Openings source entries) (he : e ∈ entries) (hother : other ∈ entries)
    (same : e.position.line = other.position.line) : e = other :=
  List.inj_on_of_nodup_map (h.lines.imp fun hlt => Nat.ne_of_lt hlt) he hother same

end Openings

section Led

variable {source : List Char} {c : Cursor} {line : LogicalLine} {rest : List LogicalLine}

theorem Cursor.Led.pass (hc : c.Led source) (h : c.lines = line :: rest) :
    (c.pass line rest).Led source :=
  fun l hl => hc l (by rw [h]; exact List.mem_cons_of_mem _ hl)

theorem Cursor.Led.enter (hc : c.Led source) (h : c.lines = line :: rest)
    (item : isItem line.text = true) (present : isAbsent line.item = false) :
    (c.enter line rest).Led source := by
  intro l hl
  rcases List.mem_cons.mp hl with rfl | hl
  · obtain ⟨top, htop, hleads⟩ := hc line (by rw [h]; exact List.mem_cons_self)
    exact ⟨top, htop, hleads.behindDash item present⟩
  · exact hc l (by rw [h]; exact List.mem_cons_of_mem _ hl)

theorem Cursor.Led.opened (hc : c.Led source) (h : c.lines = line :: rest) {indent : Nat}
    (hindent : line.indent = indent) {split : KeySplit} (hkey : splitKey line.text = some split)
    (n : Node) (endLine : Nat) :
    Entry.Opened source
      ⟨String.ofList split.key, ⟨line.number, indent + 1⟩, split.spacing, n, endLine⟩ := by
  obtain ⟨top, htop, hleads⟩ := hc line (by rw [h]; exact List.mem_cons_self)
  exact ⟨top, htop, line, split, hleads, hkey, by rw [← hindent]; rfl, rfl, rfl⟩

mutual

theorem NodeAt.openings {c after : Cursor} {n : Node} :
    NodeAt c n after → c.Placed source → c.Led source →
      Openings source n.allEntries ∧ after.Led source
  | .nothing _ => fun _ hled => ⟨by rw [Node.allEntries_empty]; exact .nil, hled⟩
  | .sequence _ _ found => fun hc hled => by
    rw [Node.allEntries_sequence]
    exact found.openings hc hled
  | .mapping _ _ _ found => fun hc hled => by
    rw [Node.allEntries_mapping]
    exact found.openings hc hled
  | .value h _ _ found => fun hc hled => found.openings (hc.pass h) (hled.pass h)

theorem ItemsAt.openings {indent : Nat} {c after : Cursor} {list : List (Item Node)} :
    ItemsAt indent c list after → c.Placed source → c.Led source →
      Openings source (list.flatMap fun item => item.value.allEntries) ∧ after.Led source
  | .stop _ => fun _ hled => ⟨.nil, hled⟩
  | .item h _ hitem first more => by
    intro hc hled
    have hmid := (first.placed h hitem hc).2
    obtain ⟨hfirst, hledMid⟩ := first.openings h hitem hc hled
    obtain ⟨hmore, hafter⟩ := more.openings hmid hledMid
    rw [List.flatMap_cons]
    exact ⟨hfirst.append hmore _ (fun e he => first.entries_le h hitem hc he)
      fun e he => (more.entries_within hmid he).1, hafter⟩

theorem ItemAt.openings {c after : Cursor} {line : LogicalLine} {rest : List LogicalLine}
    {n : Node} :
    ItemAt c line rest n after → c.lines = line :: rest → isItem line.text = true →
      c.Placed source → c.Led source → Openings source n.allEntries ∧ after.Led source
  | .deeper _ _ _ found => fun h _ hc hled => found.openings (hc.pass h) (hled.pass h)
  | .empty _ _ => fun h _ _ hled => ⟨by rw [Node.allEntries_empty]; exact .nil, hled.pass h⟩
  | .behind hpresent _ found => fun h hitem hc hled =>
    found.openings (hc.enter h hitem hpresent) (hled.enter h hitem hpresent)
  | .value _ _ found => fun h _ hc hled => found.openings (hc.pass h) (hled.pass h)

theorem EntriesAt.openings {indent : Nat} {c after : Cursor} {list : List (Entry Node)} :
    EntriesAt indent c list after → c.Placed source → c.Led source →
      Openings source (list.flatMap Entry.covered) ∧ after.Led source
  | .stop _ => fun _ hled => ⟨.nil, hled⟩
  | .entry h hindent hkey first more => by
    intro hc hled
    have hmid := (first.placed h hkey hc).2
    obtain ⟨hfirst, hledMid⟩ := first.openings h hc hled
    obtain ⟨hmore, hafter⟩ := more.openings hmid hledMid
    rw [List.flatMap_cons]
    refine ⟨Openings.append (.cons (hled.opened h hindent hkey _ _) hfirst fun e he =>
      (first.entries_within h hc he).1) hmore _ ?_ fun e he => (more.entries_within hmid he).1,
      hafter⟩
    exact List.forall_mem_cons.mpr ⟨(first.nests h hc).passes, fun e he =>
      (first.entries_within h hc he).2⟩

theorem EntryAt.openings {c after : Cursor} {line : LogicalLine} {rest : List LogicalLine}
    {split : KeySplit} {n : Node} :
    EntryAt c line rest split n after → c.lines = line :: rest → c.Placed source →
      c.Led source → Openings source n.allEntries ∧ after.Led source
  | .deeper _ _ _ found => fun h hc hled => found.openings (hc.pass h) (hled.pass h)
  | .items _ _ _ _ found => fun h hc hled => by
    rw [Node.allEntries_sequence]
    exact found.openings (hc.pass h) (hled.pass h)
  | .empty _ _ => fun h _ hled => ⟨by rw [Node.allEntries_empty]; exact .nil, hled.pass h⟩
  | .value _ found => fun h hc hled => found.openings (hc.pass h) (hled.pass h)

theorem ValueAt.openings {text : List Char} {line column parent : Nat} {c after : Cursor}
    {n : Node} :
    ValueAt text line column parent c n after → c.Placed source → c.Led source →
      Openings source n.allEntries ∧ after.Led source
  | .deeper _ _ _ found => found.openings
  | .empty _ _ => fun _ hled => ⟨by rw [Node.allEntries_empty]; exact .nil, hled⟩
  | .scalar _ _ => fun _ hled => by
    refine ⟨by rw [scalarAt, Node.allEntries_scalar]; exact .nil, fun l hl => hled l ?_⟩
    rw [← scalarText_append _ parent c.lines]
    exact List.mem_append_right _ hl

end

/-- **Every entry of an outline has a line of its own.** -/
theorem scan_openings (source : List Char) :
    Openings source (Outline.scan source).root.allEntries :=
  ((node_at (.ofText source)).openings Cursor.ofText_placed
    fun line hline => ⟨line, hline, .here⟩).1

end Led

/-! ### The line of the key -/

/-- Texts of one length before a common end are one text. -/
theorem append_inj_of_byteLength {a b x y : List Char} (h : a ++ x = b ++ y)
    (same : byteLength a = byteLength b) : a = b ∧ x = y := by
  induction a generalizing b with
  | nil =>
    cases b with
    | nil => exact ⟨rfl, h⟩
    | cons c more =>
      have := c.utf8Size_pos
      rw [byteLength_nil, byteLength_cons] at same
      omega
  | cons c more ih =>
    cases b with
    | nil =>
      have := c.utf8Size_pos
      rw [byteLength_nil, byteLength_cons] at same
      omega
    | cons d others =>
      obtain ⟨rfl, htail⟩ := List.cons.inj h
      obtain ⟨rfl, rfl⟩ := ih htail (by simpa using same)
      exact ⟨rfl, rfl⟩

/-- When a source line is a line with structure, and which. -/
theorem LogicalLine.ofLine?_eq_some_iff {number : Nat} {cut : List Char} {line : LogicalLine} :
    ofLine? number cut = some line ↔
      line.number = number ∧ trimEnd cut = List.replicate line.indent ' ' ++ line.text ∧
        line.text.head? ≠ some ' ' ∧ HasContent line.text ∧
        ¬(line.indent = 0 ∧ isDocumentMarker (trimStart line.text) = true) := by
  have hspaces : ∀ n, (List.replicate n ' ').all isBlank = true := fun n =>
    all_isBlank_of_spaces (by simp)
  rw [ofLine?_eq]
  constructor
  · intro h
    have htake : (trimEnd cut).takeWhile (· == ' ') =
        List.replicate ((trimEnd cut).takeWhile (· == ' ')).length ' ' :=
      List.eq_replicate_iff.mpr ⟨rfl, fun c hc => beq_iff_eq.mp (List.all_eq_true.mp List.all_takeWhile c hc)⟩
    have hcut := List.takeWhile_append_dropWhile (p := (· == ' ')) (l := trimEnd cut)
    have hstart : trimStart (trimEnd cut) = trimStart ((trimEnd cut).dropWhile (· == ' ')) :=
      (trimStart_dropWhile_spaces _).symm
    split at h
    · cases h
    · rename_i hpresent
      split at h
      · cases h
      · rename_i hmarker
        obtain rfl := Option.some.inj h
        refine ⟨rfl, ?_, ?_, ?_, ?_⟩
        · rw [← htake, hcut]
        · intro hhead
          have hnot := List.head?_dropWhile_not (· == ' ') (trimEnd cut)
          rw [hhead] at hnot
          cases hnot
        · rw [HasContent, ← hstart]
          exact Bool.eq_false_iff.mpr hpresent
        · rw [← hstart]
          intro hboth
          exact hmarker (Bool.and_eq_true_iff.mpr ⟨decide_eq_true hboth.1, hboth.2⟩)
  · rintro ⟨hnumber, hcut, hhead, hcontent, hmarker⟩
    have htake : line.text.takeWhile (· == ' ') = [] ∧ line.text.dropWhile (· == ' ') = line.text := by
      cases htext : line.text with
      | nil => exact ⟨rfl, rfl⟩
      | cons c rest =>
        have hc : (c == ' ') = false := by
          rw [htext] at hhead
          simpa using hhead
        exact ⟨List.takeWhile_cons_of_neg (by simp [hc]), List.dropWhile_cons_of_neg (by simp [hc])⟩
    have hstart := trimStart_append_of_all_isBlank (hspaces line.indent) line.text
    rw [hcut, hstart, List.takeWhile_append_of_pos (by simp), List.dropWhile_append_of_pos (by simp),
      htake.1, htake.2, List.append_nil, List.length_replicate, if_neg (by simpa [HasContent] using hcontent),
      if_neg (by simpa using hmarker), ← hnumber]

namespace Rewriting

variable {r : Rewriting} {source source' : List Char}

/-- The new text may stand where the old one does: behind blanks, and at the margin. -/
structure Fits (r : Rewriting) : Prop where
  head : trimStart r.new = r.new ∨ r.new.head? = r.old.head?
  content : HasContent r.old → HasContent r.new
  marker : isDocumentMarker (trimStart r.new) = true → isDocumentMarker (trimStart r.old) = true

/-- Two sources that differ in one line, from the key on. -/
inductive Rewrites (r : Rewriting) (source source' : List Char) : Prop
  | intro {above below : List (List Char)} {before text text' : List Char}
      (old : splitLines source = above ++ (before ++ text) :: below)
      (new : splitLines source' = above ++ (before ++ text') :: below)
      (number : above.length + 1 = r.number) (indent : byteLength before = r.indent)
      (oldText : trimEnd text = r.old) (newText : trimEnd text' = r.new)

theorem isAbsent_new (r : Rewriting) : isAbsent r.new = false := by
  have hkey := r.newKey
  cases hnew : r.new with
  | nil =>
    rw [hnew] at hkey
    cases hkey
  | cons c rest =>
    rw [hnew] at hkey
    refine beq_eq_false_iff_ne.mpr ?_
    rintro rfl
    have hnone : splitKey ('#' :: rest) = none := splitKey_eq_none fun split cut => by
      cases cut with
      | quoted isQuote => exact absurd isQuote (by decide)
      | plain _ opens => cases opens
    cases hnone.symm.trans hkey

/-- Another text may stand where one does: behind blanks or dashes, and at the margin. -/
structure TextFits (old new : List Char) : Prop where
  head : trimStart new = new ∨ new.head? = old.head?
  content : HasContent old → HasContent new
  present : isAbsent new = false

theorem Fits.text (h : r.Fits) : TextFits r.old r.new := ⟨h.head, h.content, r.isAbsent_new⟩

namespace TextFits

variable {old new : List Char}

/-- What begins without a blank still does. -/
theorem trimStart_eq (h : TextFits old new) (start : trimStart old = old) : trimStart new = new := by
  refine h.head.elim id fun hhead => ?_
  cases new with
  | nil => rfl
  | cons c rest =>
    cases old with
    | nil => cases hhead
    | cons d more =>
      obtain rfl : c = d := by simpa using hhead
      exact trimStart_of_not_isBlank (isBlank_head_trimStart start)

theorem head?_ne (h : TextFits old new) (head : old.head? ≠ some ' ') : new.head? ≠ some ' ' := by
  rcases h.head with hstart | hsame
  · intro hhead
    obtain ⟨rest, rfl⟩ := List.head?_eq_some_iff.mp hhead
    exact absurd (isBlank_head_trimStart hstart) (by decide)
  · rwa [hsame]

end TextFits

/-- Dashes before a text. -/
inductive Dashes : List Char → Prop
  | nil : Dashes []
  | cons (more : List Char) : Dashes ('-' :: ' ' :: more)

namespace Dashes

variable {dashes old new : List Char}

/-- With the same dashes before it, the new text begins without a blank, and is no comment. -/
theorem trimStart_append (h : Dashes dashes) (fits : TextFits old new)
    (start : trimStart (dashes ++ old) = dashes ++ old) :
    trimStart (dashes ++ new) = dashes ++ new ∧ isAbsent (dashes ++ new) = false := by
  cases h with
  | nil => exact ⟨fits.trimStart_eq start, fits.present⟩
  | cons more => exact ⟨trimStart_of_not_isBlank (by decide), rfl⟩

/-- What a line needs to be one with structure, it has with the new text if it had it with
the old one. -/
theorem fits (h : Dashes dashes) (fits : TextFits old new)
    (head : (dashes ++ old).head? ≠ some ' ') (content : HasContent (dashes ++ old)) :
    (dashes ++ new).head? ≠ some ' ' ∧ HasContent (dashes ++ new) := by
  cases h with
  | nil => exact ⟨fits.head?_ne head, fits.content content⟩
  | cons more =>
    refine ⟨by simp, ?_⟩
    have hstart : trimStart ('-' :: ' ' :: more ++ new) = '-' :: ' ' :: more ++ new :=
      trimStart_of_not_isBlank (by decide)
    rw [HasContent, hstart]
    rfl

/-- A line with dashes is no marker. -/
theorem marker (h : Dashes dashes)
    (text : dashes = [] → isDocumentMarker (trimStart new) = true →
      isDocumentMarker (trimStart old) = true)
    (marker : isDocumentMarker (trimStart (dashes ++ new)) = true) :
    isDocumentMarker (trimStart (dashes ++ old)) = true := by
  cases h with
  | nil => exact text rfl marker
  | cons more =>
    rw [show trimStart ('-' :: ' ' :: more ++ new) = '-' :: ' ' :: more ++ new from
      trimStart_of_not_isBlank (by decide)] at marker
    simp [isDocumentMarker, List.isPrefixOf] at marker

end Dashes

end Rewriting

namespace LogicalLine

open Rewriting

/-- An item with something in it has a space behind the dash. -/
theorem exists_eq_of_present {line : LogicalLine} (item : isItem line.text = true)
    (present : isAbsent line.item = false) :
    ∃ blanks, line.text = '-' :: ' ' :: blanks ++ line.item ∧ blanks.all isBlank = true := by
  obtain ⟨number, indent, text⟩ := line
  dsimp only [LogicalLine.item] at item present ⊢
  unfold isItem at item
  split at item
  · cases present
  · rename_i tail
    have hitem : trimStart (('-' :: ' ' :: tail).drop 1) = trimStart tail := by
      rw [List.drop_succ_cons, List.drop_zero, trimStart, if_pos (by decide)]
    refine ⟨tail.takeWhile isBlank, ?_, isBlank_of_mem_takeWhile tail⟩
    rw [hitem, List.cons_append, List.cons_append, takeWhile_append_trimStart]
  · cases item

/-- What stands behind a dash and blanks. -/
theorem behindDash_eq (number indent : Nat) {blanks text : List Char}
    (hblanks : blanks.all isBlank = true) (htext : trimStart text = text) :
    (⟨number, indent, '-' :: ' ' :: blanks ++ text⟩ : LogicalLine).behindDash =
      ⟨number, indent + 2 + byteLength blanks, text⟩ := by
  have hitem : (⟨number, indent, '-' :: ' ' :: blanks ++ text⟩ : LogicalLine).item = text := by
    rw [item, List.cons_append, List.drop_succ_cons, List.drop_zero, List.cons_append, trimStart,
      if_pos (by decide), trimStart_append_of_all_isBlank hblanks, htext]
  have hspace : Char.utf8Size ' ' = 1 := by decide
  rw [behindDash, hitem]
  simp only [List.cons_append, List.drop_succ_cons, List.drop_zero, byteLength_cons,
    byteLength_append, hspace]
  congr 1
  omega

/-- Before what is left of a line stand its dashes, and what is left may be exchanged. -/
theorem Leads.exists_dashes {top inner : LogicalLine} (h : top.Leads inner) :
    ∃ dashes, Dashes dashes ∧ top.text = dashes ++ inner.text ∧
      top.indent + byteLength dashes = inner.indent ∧
      ∀ new, TextFits inner.text new →
        Exchanged inner { inner with text := new } top { top with text := dashes ++ new } := by
  induction h with
  | here => exact ⟨[], .nil, rfl, rfl, fun new _ => .here⟩
  | @behind line inner hitem hpresent _ ih =>
    obtain ⟨dashes, hdashes, htext, hindent, hexchanged⟩ := ih
    obtain ⟨blanks, hshape, hblanks⟩ := exists_eq_of_present hitem hpresent
    have hitemText : line.item = dashes ++ inner.text := htext
    have hstart : trimStart line.item = line.item := trimStart_trimStart _
    have hold : line.behindDash = ⟨line.number, line.indent + 2 + byteLength blanks, line.item⟩ := by
      rw [← behindDash_eq _ _ hblanks hstart, ← hshape]
    have hsize : Char.utf8Size '-' = 1 ∧ Char.utf8Size ' ' = 1 := by decide
    refine ⟨'-' :: ' ' :: blanks ++ dashes, .cons _, ?_, ?_, ?_⟩
    · rw [hshape, hitemText, List.append_assoc]
    · rw [← hindent, hold]
      simp only [List.cons_append, byteLength_cons, byteLength_append, hsize.1, hsize.2]
      omega
    · intro new fits
      rw [hitemText] at hstart
      obtain ⟨hnew, hpresentNew⟩ := hdashes.trimStart_append fits hstart
      have hbehind := behindDash_eq line.number line.indent hblanks hnew
      rw [← List.append_assoc] at hbehind
      have hinner := hexchanged new fits
      rw [hold] at hinner
      refine .behind rfl rfl hitem rfl hpresent ?_ ?_
      · rw [show LogicalLine.item _ = _ from congrArg LogicalLine.text hbehind]
        exact hpresentNew
      · rw [hold, hbehind]
        exact hinner

/-- A line of the source with another text from some place behind its dashes on is a line
with structure again. -/
theorem exists_ofLine?_exchanged {number : Nat} {before text text' new : List Char}
    {top line : LogicalLine} (old : ofLine? number (before ++ text) = some top)
    (leads : top.Leads line) (indent : byteLength before = line.indent)
    (oldText : trimEnd text = line.text) (newText : trimEnd text' = new)
    (fits : TextFits line.text new)
    (marker : line.indent = 0 → isDocumentMarker (trimStart new) = true →
      isDocumentMarker (trimStart line.text) = true) (present : line.text ≠ []) :
    ∃ top', ofLine? number (before ++ text') = some top' ∧
      Exchanged line { line with text := new } top top' := by
  obtain ⟨dashes, hdashes, htext, hindent, hexchanged⟩ := leads.exists_dashes
  obtain ⟨hnumber, hcut, hhead, hcontent, hmarker⟩ := ofLine?_eq_some_iff.mp old
  have hspaces : (List.replicate top.indent ' ').all (· == ' ') = true := by simp
  have hnewNe : new ≠ [] := by
    rintro rfl
    exact absurd fits.present (by decide)
  -- The text before is the spaces and the dashes.
  rw [trimEnd, trimEndOf_append_of_ne_nil (by rw [← trimEnd, oldText]; exact present), ← trimEnd,
    oldText, htext, ← List.append_assoc] at hcut
  obtain ⟨rfl, -⟩ := append_inj_of_byteLength hcut (by
    rw [byteLength_append, byteLength_eq_length_of_spaces hspaces, List.length_replicate, hindent,
      indent])
  refine ⟨_, ?_, hexchanged new fits⟩
  rw [htext] at hhead hcontent hmarker
  obtain ⟨hheadNew, hcontentNew⟩ := hdashes.fits fits hhead hcontent
  refine ofLine?_eq_some_iff.mpr ⟨hnumber, ?_, hheadNew, hcontentNew, fun hboth => hmarker ⟨hboth.1,
    hdashes.marker (fun hnil => marker (hindent.symm.trans (by rw [hnil, hboth.1]; rfl))) hboth.2⟩⟩
  rw [trimEnd, trimEndOf_append_of_ne_nil (by rw [← trimEnd, newText]; exact hnewNe), ← trimEnd,
    newText, List.append_assoc]

/-- The line of the key is a line with structure again, with the new text in it. -/
theorem exists_ofLine?_rewritten {r : Rewriting} (fits : r.Fits) {before text text' : List Char}
    {top line : LogicalLine} {split : KeySplit}
    (old : ofLine? r.number (before ++ text) = some top) (leads : top.Leads line)
    (key : splitKey line.text = some split) (place : line.place = r.place)
    (indent : byteLength before = r.indent) (oldText : trimEnd text = r.old)
    (newText : trimEnd text' = r.new) :
    split = r.oldSplit ∧
      ∃ top', ofLine? r.number (before ++ text') = some top' ∧ r.Line top top' := by
  obtain ⟨dashes, -, htext, hindent, -⟩ := leads.exists_dashes
  obtain ⟨-, hcut, -⟩ := ofLine?_eq_some_iff.mp old
  have hspaces : (List.replicate top.indent ' ').all (· == ' ') = true := by simp
  have hlineIndent : line.indent = r.indent := Nat.succ.inj (congrArg Position.column place)
  have holdNe : r.old ≠ [] := by
    intro hnone
    have hkey := r.oldKey
    rw [hnone] at hkey
    cases hkey
  rw [trimEnd, trimEndOf_append_of_ne_nil (by rw [← trimEnd, oldText]; exact holdNe), ← trimEnd,
    oldText, htext, ← List.append_assoc] at hcut
  obtain ⟨-, holdText⟩ := append_inj_of_byteLength hcut (by
    rw [byteLength_append, byteLength_eq_length_of_spaces hspaces, List.length_replicate, hindent,
      hlineIndent, indent])
  have hline : line = r.oldLine := by
    obtain ⟨number, lineIndent, lineText⟩ := line
    rw [Exchange.oldLine]
    congr 1
    · exact congrArg Position.line place
    · exact holdText.symm
  subst hline
  obtain ⟨top', hnew, hexchanged⟩ := exists_ofLine?_exchanged old leads indent oldText newText
    fits.text (fun _ => fits.marker) holdNe
  exact ⟨Option.some.inj (key.symm.trans r.oldKey), top', hnew, hexchanged⟩

end LogicalLine

namespace Rewriting

variable {r : Rewriting} {source source' : List Char} {ok : Node → Prop} {value : Node → Node}
  {exact : Prop}

/-- The entry at the place is read from the line that is written anew. -/
theorem Rewrites.ahead (h : r.Rewrites source source') (fits : r.Fits) {e : Entry Node}
    (he : e ∈ (Outline.scan source).root.allEntries) (place : e.position = r.place) :
    r.Ahead (.ofText source) (.ofText source') ∧ e.key = String.ofList r.oldSplit.key ∧
      e.spacing = r.oldSplit.spacing := by
  cases h with
  | @intro above below before text text' old new number indent oldText newText =>
    obtain ⟨top, htop, line, split, leads, hkey, hplace, hname, hspacing⟩ :=
      (scan_openings source).opened e he
    have htopNumber : top.number = r.number := by
      rw [← leads.number_eq]
      exact congrArg Position.line (hplace.symm.trans place)
    have hline := ofLine?_of_mem_ofText htop old (htopNumber.trans number.symm)
    rw [htopNumber] at hline
    obtain ⟨rfl, top', htop', hrewritten⟩ := LogicalLine.exists_ofLine?_rewritten fits hline leads hkey
      (hplace.symm.trans place) indent oldText newText
    refine ⟨⟨?_, rfl, rfl⟩, hname, hspacing⟩
    rw [Cursor.ofText, Cursor.ofText, LogicalLine.ofText, LogicalLine.ofText, old, new,
      LogicalLine.ofLines_append, LogicalLine.ofLines_append, LogicalLine.ofLines,
      LogicalLine.ofLines, Nat.add_comm 1, number, hline, htop']
    exact .append _ (.head hrewritten)

/-- **A key written anew changes its entry and nothing else**, provided that what stands
under the new key is read up to the line that was next under the old one. -/
theorem Rewrites.scan_rewritten (h : r.Rewrites source source') (fits : r.Fits)
    (reads : r.Reads source ok value exact) {e : Entry Node}
    (he : e ∈ (Outline.scan source).root.allEntries) (place : e.position = r.place)
    (hok : ok e.value) :
    (∃ e' ∈ (Outline.scan source').root.allEntries,
      e'.position = e.position ∧ e'.value = value e.value) ∧
      (exact → Outline.scan source' =
        ⟨(Outline.scan source).root.edit e.position (r.entry value), (Outline.scan source).verbatim⟩) := by
  have only : ∀ other ∈ (Outline.scan source).root.allEntries, other.position = r.place → other = e :=
    fun other hother hplace => (scan_openings source).eq_of_line hother he
      (congrArg Position.line (hplace.trans place.symm))
  obtain ⟨n', after', hfound, ⟨old, hold, new, hnew, holdPlace, hnewPlace, hvalue⟩, hexact⟩ :=
    (node_at (.ofText source)).rewritten reads Cursor.ofText_placed (h.ahead fits he place).1
      ⟨e, he, place⟩ fun other hother hplace => only other hother hplace ▸ hok
  obtain rfl := only old hold holdPlace
  have hscan := scan_eq_of_nodeAt hfound
  constructor
  · rw [hscan]
    exact ⟨new, hnew, hnewPlace.trans place.symm, hvalue⟩
  · intro h
    obtain ⟨rfl, rfl⟩ := hexact h
    rw [hscan, place]
    rfl

end Rewriting

end PlaybookStyle.Outline
