/-
Reports on texts that stand behind one another.

Where the playbooks of two texts are joined, the rules find in the first what they
find in it alone, and in the second the same at moved lines; the rules on blank
lines may have more to say about its first block, which now has another before it
(`findings_joined`). The findings about the first text stand on its lines and so
come before all others when the report is sorted.

* `check_append` — the joined text is accepted exactly if no line of the first text
  is left over, and then its report is made of the two reports.
-/

import PlaybookStyle.Proofs.Noise.Report
import PlaybookStyle.Proofs.Playbook.Accepted
import PlaybookStyle.Proofs.Playbook.Appending
import PlaybookStyle.Proofs.Rule.Neighbours
import PlaybookStyle.Proofs.Run

namespace PlaybookStyle

open Text Outline Playbook

/-! ### Places in the two texts -/

/-- A place on a line of a text. -/
def OnLineOf (text : List Char) (place : Position) : Prop :=
  0 < place.line ∧ place.line ≤ (splitLines text).length

theorem LiesIn.onLineOf {text : List Char} {place : Position} (h : LiesIn text place) :
    OnLineOf text place := by
  obtain ⟨line, hline, -⟩ := h
  have hlength := (forall₂_splitLines_lines text).length_eq
  obtain ⟨number, column⟩ := place
  cases number with
  | zero => cases hline
  | succ n =>
    obtain ⟨hlt, -⟩ := List.getElem?_eq_some_iff.mp hline
    exact ⟨Nat.succ_pos n, by dsimp only; omega⟩

/-- Everything on the walk over a text is on its lines. -/
theorem Playbook.visits_onLineOf {path content : String} {p : Playbook}
    (load : Playbook.load path content = .ok p) : PartsAt (OnLineOf content.toList) p.visits :=
  visits_everywhere load (liesIn_start (ne_nil_of_load load)).onLineOf
    (fun _ _ _ h => (liesIn_of_sourceLines h).onLineOf)
    ((Outline.scan_placed _).everywhere.imp fun _ h => h.onLineOf)

theorem Playbook.Part.Everywhere.position {P : Position → Prop} {part : Part}
    (h : part.Everywhere P) : P part.position := by
  cases part with
  | entry | scalar => exact h
  | module => exact h.1
  | document | play | task | role | inclusion => exact h.1

theorem Diagnostic.Moved.eq_of_id {d d' : Diagnostic} (h : d.Moved id d') : d = d' := by
  cases h with
  | place => rfl
  | spacing _ message =>
    rw [id, ← message]
    rfl

/-! ### The document -/

section Document

variable {settings : Settings} {path : String} {a b : List Char} {second : Nat} {p q : Playbook}

/-- On the lines of the first text verbatim lines are those of its playbook. -/
theorem isVerbatim_joined_front {n : Nat} (hn : n ≤ (splitLines a).length) :
    (Playbook.joined a b second p q).isVerbatim n = p.isVerbatim n := by
  have hbehind : (q.verbatim.map (LineRange.moved (· + (splitLines a).length))).any
      (·.contains n) = false := by
    rw [List.any_eq_false]
    rintro _ hrange
    obtain ⟨range, -, rfl⟩ := List.mem_map.mp hrange
    rw [LineRange.contains_iff, LineRange.moved]
    dsimp only
    omega
  rw [isVerbatim, Playbook.joined, List.any_append, hbehind, Bool.or_false, isVerbatim]

/-- On the lines behind they are those of the other playbook. -/
theorem isVerbatim_joined_behind (within : ∀ range ∈ p.verbatim, range.last ≤ (splitLines a).length)
    {n : Nat} (hn : 0 < n) :
    (Playbook.joined a b second p q).isVerbatim (n + (splitLines a).length) = q.isVerbatim n := by
  have hmono : StrictMono (· + (splitLines a).length) := fun m n h => Nat.add_lt_add_right h _
  have hfront : p.verbatim.any (·.contains (n + (splitLines a).length)) = false := by
    rw [List.any_eq_false]
    intro range hrange
    have hlast := within range hrange
    rw [LineRange.contains_iff]
    omega
  have hmoved : ∀ range : LineRange, (range.moved (· + (splitLines a).length)).contains
      (n + (splitLines a).length) = range.contains n := fun range => range.contains_moved hmono hn
  rw [isVerbatim, Playbook.joined, List.any_append, hfront, Bool.false_or, List.any_map, isVerbatim]
  simp only [Function.comp_def, hmoved]

/-- What is remarked on the indentation of both texts. -/
theorem indentRemarks_joined (newline : a.getLast? = some '\n')
    (within : ∀ range ∈ p.verbatim, range.last ≤ (splitLines a).length) :
    Rule.indentRemarks (Playbook.joined a b second p q).isVerbatim
        (SourceLines.ofText (a ++ b)).numbered =
      Rule.indentRemarks p.isVerbatim (SourceLines.ofText a).numbered ++
        (Rule.indentRemarks q.isVerbatim (SourceLines.ofText b).numbered).map
          (Remark.moved (· + (splitLines a).length)) := by
  have hlength : (SourceLines.ofText a).lines.length = (splitLines a).length := List.length_map _
  have hnumbered : (SourceLines.ofText (a ++ b)).numbered = (SourceLines.ofText a).numbered ++
      (List.range' (1 + (splitLines a).length) (SourceLines.ofText b).lines.length).zip
        (SourceLines.ofText b).lines := by
    rw [ofText_append newline, ← hlength]
    exact Rule.numbered_append 1 _ _
  have hfront : Rule.indentRemarks (Playbook.joined a b second p q).isVerbatim
      (SourceLines.ofText a).numbered =
        Rule.indentRemarks p.isVerbatim (SourceLines.ofText a).numbered := by
    refine List.filterMap_congr ?_
    rintro ⟨number, line⟩ hline
    obtain ⟨i, rfl, hi⟩ := Rule.line_of_mem_numbered hline
    obtain ⟨hlt, -⟩ := List.getElem?_eq_some_iff.mp hi
    dsimp only
    rw [isVerbatim_joined_front (hlength ▸ hlt)]
  have hskip : ∀ n, 0 < n →
      (Playbook.joined a b second p q).isVerbatim (n + (splitLines a).length) = q.isVerbatim n := fun n => isVerbatim_joined_behind within
  have hbehind := Rule.indentRemarks_moved (SourceLines.ofText b).lines Nat.one_pos hskip
    fun i _ => Nat.add_right_comm 1 i (splitLines a).length
  rw [hnumbered, Rule.indentRemarks_append, hfront, hbehind]
  rfl

/-- About a document with an accepted name only the rule on indentation speaks. -/
theorem findingsAt_document_eq (encrypted : p.encrypted = false)
    (extension : Rule.extensionRemark? settings.conventions.extensions p.path .start = none) :
    Registry.builtin.findingsAt settings path (.alone (.document p)) =
      Rule.indentation.findings settings path (.alone (.document p)) := by
  have hextension :
      Rule.fileExtension.remarks settings.conventions (.alone (.document p)) = [] := by
    simp only [Rule.fileExtension, Visit.alone, encrypted, extension]
    rfl
  have hvault :
      Rule.vaultFileExtension.remarks settings.conventions (.alone (.document p)) = [] := by
    simp only [Rule.vaultFileExtension, Visit.alone, encrypted]
    rfl
  have hsilent : ∀ rule : Rule, rule.remarks settings.conventions (.alone (.document p)) = [] →
      rule.findings settings path (.alone (.document p)) = [] := by
    intro rule hremarks
    rw [Rule.findings_eq, hremarks, List.map_nil, ite_self]
  rw [Registry.findingsAt, show (Visit.alone (.document p)).part.kind = .document from rfl,
    Rule.rulesFor_document, List.flatMap_cons, List.flatMap_cons, List.flatMap_singleton,
    hsilent _ hextension, hsilent _ hvault, List.append_nil, List.append_nil]

/-- **What is found about the document.** The rule on indentation finds in both texts
what it finds in each. -/
theorem findingsAt_document_joined (newline : a.getLast? = some '\n')
    (within : ∀ range ∈ p.verbatim, range.last ≤ (splitLines a).length)
    (source : p.source = .ofText a) (source' : q.source = .ofText b)
    (encrypted : p.encrypted = false) (encrypted' : q.encrypted = false)
    (samePath : q.path = p.path)
    (extension : Rule.extensionRemark? settings.conventions.extensions p.path .start = none) :
    ∃ moved, Registry.builtin.findingsAt settings p.path
          (.alone (.document (Playbook.joined a b second p q))) =
        Registry.builtin.findingsAt settings p.path (.alone (.document p)) ++ moved ∧
      List.Forall₂ (Diagnostic.Moved (· + (splitLines a).length))
        (Registry.builtin.findingsAt settings p.path (.alone (.document q))) moved ∧
      ∀ d ∈ moved, d.rule = Rule.indentation.id := by
  have hblock : Rule.indentation.id ≠ Rule.blockSpacing.id := by decide
  rw [findingsAt_document_eq (p := Playbook.joined a b second p q) rfl extension,
    findingsAt_document_eq encrypted extension,
    findingsAt_document_eq encrypted' (samePath ▸ extension), Rule.findings_eq, Rule.findings_eq,
    Rule.findings_eq]
  split
  · rw [Visit.alone, Visit.alone, Visit.alone, Rule.indentation_remarks rfl,
      Rule.indentation_remarks encrypted, Rule.indentation_remarks encrypted', source, source',
      show (Playbook.joined a b second p q).source = .ofText (a ++ b) from rfl,
      indentRemarks_joined newline within, List.map_append]
    refine ⟨_, rfl, ?_, ?_⟩
    · rw [List.map_map, List.forall₂_map_left_iff, List.forall₂_map_right_iff, List.forall₂_same]
      exact fun remark _ => .place hblock
    · rw [List.forall_mem_map]
      exact fun _ _ => rfl
  · exact ⟨[], rfl, .nil, nofun⟩

end Document

/-! ### The blocks -/

namespace Playbook

theorem Part.position_moved {r : Relocation} {part : Part} (h : part.kind ≠ .document) :
    (part.moved r).position = part.position.moved r.line := by
  cases part with
  | document p => exact absurd rfl h
  | task t =>
    obtain ⟨position, endLine, blank, name?, module?, fields, entries, nested⟩ := t
    simp only [Part.moved, taskMoved, Part.position]
  | entry e =>
    obtain ⟨key, position, spacing, value, endLine, assigns⟩ := e
    simp only [Part.moved, entryMoved, Part.position]
  | _ => rfl

end Playbook

section Blocks

variable {settings : Settings} {path : String} {a b : List Char} {p q : Playbook}

/-- **The blocks of the first text.** What is found at them stays. -/
theorem findings_front (within : PartsAt (OnLineOf a) (visitsOfBlocks none p.blocks)) :
    (visitsOfBlocks none (p.blocks.map (Block.moved (.front a b)))).flatMap
        (Registry.builtin.findingsAt settings path) =
      (visitsOfBlocks none p.blocks).flatMap (Registry.builtin.findingsAt settings path) := by
  have hid : StrictMono (Relocation.front a b).line := strictMono_id
  have hmoved : visitsOfBlocks none (p.blocks.map (Block.moved (.front a b))) =
      (visitsOfBlocks none p.blocks).map (Visit.moved (.front a b)) :=
    visitsOfBlocks_moved hid.injective none p.blocks
  rw [hmoved, List.flatMap_map]
  refine List.flatMap_congr fun visit hvisit => ?_
  have hinner := visitsOfBlocks_inner p.blocks (by simp) visit hvisit
  have hfound := Registry.findingsAt_moved hid settings path hinner fun _ _ =>
    if_pos (within visit hvisit).position.2
  rw [eq_comm, ← List.forall₂_eq_eq_eq]
  exact hfound.imp fun _ _ h => h.eq_of_id

/-- **The blocks of the second text.** What is found at them moves with them, apart
from what the rules on blank lines find at the first, which now has a part before it. -/
theorem findings_behind {second : Nat} (previous? : Option Part)
    (hfirst : ∀ block ∈ q.blocks.head?, block.part.position = ⟨second, 1⟩)
    (behind : ∀ visit ∈ visitsOfBlocks none q.blocks, visit.Behind second) :
    ∃ moved, ((visitsOfBlocks previous? (q.blocks.map (Block.moved (.behind a b second)))).flatMap
        (Registry.builtin.findingsAt settings path)).filter
          (!·.atBlock (second + (splitLines a).length)) = moved ∧
      List.Forall₂ (Diagnostic.Moved (· + (splitLines a).length))
        ((visitsOfBlocks none q.blocks).flatMap (Registry.builtin.findingsAt settings path))
        moved := by
  have hmono : StrictMono (Relocation.behind a b second).line := fun m n h =>
    Nat.add_lt_add_right h _
  have hmoved : visitsOfBlocks none (q.blocks.map (Block.moved (.behind a b second))) =
      (visitsOfBlocks none q.blocks).map (Visit.moved (.behind a b second)) :=
    visitsOfBlocks_moved hmono.injective none q.blocks
  refine ⟨_, rfl, ?_⟩
  rw [Registry.findings_with_previous, hmoved, List.flatMap_map]
  · refine forall₂_flatMap fun visit hvisit => ?_
    have hinner := visitsOfBlocks_inner q.blocks (by simp) visit hvisit
    exact Registry.findingsAt_moved hmono settings path hinner fun hprevious _ =>
      if_pos (behind visit hvisit hprevious)
  · intro moved hmoved
    rw [List.head?_map] at hmoved
    obtain ⟨block, hblock, rfl⟩ := Option.map_eq_some_iff.mp hmoved
    rw [Block.part_moved, Part.position_moved block.part_kind_ne_document, hfirst block hblock]
    rfl
  · rw [hmoved]
    rw [List.forall_mem_map]
    intro visit hvisit hprevious
    have hinner := visitsOfBlocks_inner q.blocks (by simp) visit hvisit
    have hbehind := behind visit hvisit fun hnone => hprevious (by rw [Visit.moved, hnone]; rfl)
    rw [show (visit.moved _).part = visit.part.moved _ from rfl, Part.position_moved hinner.1]
    exact Nat.add_lt_add_right hbehind _

end Blocks

/-! ### Both texts -/

section Joined

variable {settings : Settings} {path : String} {a b : List Char} {first second : Nat}
  {items others : List (Item Node)} {values more : List Yaml.Value} {p q : Playbook}

theorem Diagnostic.atBlock_eq_false_of_lt {line : Nat} {d : Diagnostic}
    (h : d.position.line < line) : d.atBlock line = false := by
  refine Bool.eq_false_iff.mpr fun hat => ?_
  rw [Diagnostic.atBlock, Bool.and_eq_true, beq_iff_eq] at hat
  rw [hat.2] at h
  exact Nat.lt_irrefl _ h

/-- The first block of a text stands at its first dash, and what has a part before it
behind that. -/
theorem Outline.Joins.blocks_behind (joins : Joins a b first second items others)
    (build : Playbook.build path b (.sequence more) = .ok q) :
    (∀ block ∈ q.blocks.head?, block.part.position = ⟨second, 1⟩) ∧
      ∀ visit ∈ visitsOfBlocks none q.blocks, visit.Behind second := by
  obtain ⟨hlength, hblocks, -⟩ := exists_blocksOf_of_build_sequence joins.root_behind build
  obtain ⟨hitems, line, rest, hlines, hindent, rfl, hitem⟩ :=
    (node_at (.ofText b)).items_at_margin joins.root_behind
  have hnested := (scan_nests joins.root_behind).1.nested
  rw [joins.root_behind] at hnested
  refine ⟨?_, visitsOfBlocks_behind hnested hlength hblocks⟩
  have hbuilt := blocksOf_forall₂ hlength hblocks
  generalize q.blocks = blocks at hbuilt
  cases hbuilt with
  | nil => simp
  | cons hfirst _ =>
    rintro _ ⟨⟩
    obtain ⟨value, hfirst⟩ := hfirst
    rw [position_of_block hfirst]
    exact Option.some.inj (hitems.head_position hlines hindent hitem)

/-- **What is found in both texts,** apart from what the rules on blank lines find at
the first block of the second text: what is found in the first and, at moved lines,
in the second. -/
theorem findings_joined (joins : Joins a b first second items others)
    (build : Playbook.build path a (.sequence values) = .ok p)
    (build' : Playbook.build path b (.sequence more) = .ok q)
    (onLines : PartsAt (OnLineOf a) p.visits)
    (extension : Rule.extensionRemark? settings.conventions.extensions path .start = none) :
    ∃ document inner moved moved' : List Diagnostic,
      Registry.builtin.findings settings p = document ++ inner ∧
      List.Forall₂ (Diagnostic.Moved (· + (splitLines a).length))
        (Registry.builtin.findings settings q) (moved ++ moved') ∧
      (Registry.builtin.findings settings (Playbook.joined a b second p q)).filter
          (!·.atBlock (second + (splitLines a).length)) =
        (document ++ moved) ++ (inner ++ moved') := by
  obtain ⟨-, -, hp⟩ := exists_blocksOf_of_build_sequence joins.root build
  obtain ⟨-, -, hq⟩ := exists_blocksOf_of_build_sequence joins.root_behind build'
  have hpath : p.path = path := congrArg Playbook.path hp
  have hpath' : q.path = p.path := (congrArg Playbook.path hq).trans hpath.symm
  have hwithin : ∀ range ∈ p.verbatim, range.last ≤ (splitLines a).length := by
    rw [show p.verbatim = _ from congrArg Playbook.verbatim hp]
    exact fun range hrange => ((verbatim_within joins.root range hrange).2).trans joins.lastLine_le
  obtain ⟨hfirst, hbehind⟩ := joins.blocks_behind build'
  obtain ⟨moved, hdocument, hmoved, hrule⟩ := @findingsAt_document_joined settings a b second p q
    joins.newline hwithin (congrArg Playbook.source hp) (congrArg Playbook.source hq)
    (congrArg Playbook.encrypted hp) (congrArg Playbook.encrypted hq) hpath' (hpath ▸ extension)
  have hfront := @findings_front settings path a b p fun visit hvisit =>
    onLines visit (List.mem_cons_of_mem _ hvisit)
  obtain ⟨moved', hinner, hmoved'⟩ := @findings_behind settings path a b q second
    (((p.blocks.map (Block.moved (.front a b))).getLast?.map Block.part).or none) hfirst hbehind
  have hpos : 0 < second := (scan_nests joins.root_behind).2
  have hstay : ∀ d ∈ Registry.builtin.findings settings p,
      (!d.atBlock (second + (splitLines a).length)) = true := by
    intro d hd
    have hline := (Registry.findings_inside onLines hd).2
    rw [Diagnostic.atBlock_eq_false_of_lt (by omega), Bool.not_false]
  have hindentation : ∀ d ∈ moved, (!d.atBlock (second + (splitLines a).length)) = true := by
    intro d hd
    rw [Diagnostic.atBlock, hrule d hd]
    rfl
  have hfindings : Registry.builtin.findings settings p =
      Registry.builtin.findingsAt settings path (.alone (.document p)) ++
        (visitsOfBlocks none p.blocks).flatMap (Registry.builtin.findingsAt settings path) := by
    rw [Registry.findings, Playbook.visits, List.flatMap_cons, hpath]
  rw [hfindings, List.forall_mem_append] at hstay
  rw [hpath] at hdocument hmoved
  refine ⟨_, _, moved, moved', hfindings, ?_, ?_⟩
  · rw [Registry.findings, Playbook.visits, List.flatMap_cons, hpath', hpath]
    exact List.rel_append hmoved hmoved'
  · rw [Registry.findings, Playbook.visits, List.flatMap_cons,
      show (Playbook.joined a b second p q).path = path from hpath, hdocument,
      show (Playbook.joined a b second p q).blocks = p.blocks.map _ ++ q.blocks.map _ from rfl,
      visitsOfBlocks_append, List.flatMap_append, hfront, List.filter_append, List.filter_append,
      List.filter_append, hinner, List.filter_eq_self.mpr hstay.1, List.filter_eq_self.mpr hstay.2,
      List.filter_eq_self.mpr hindentation]

/-- Findings on the lines of the first text come before the others when they are
sorted. -/
theorem Report.sortedDiagnostics_joined {line : Nat}
    {document inner moved moved' : List Diagnostic}
    (file : ∀ d ∈ document ++ inner, ∀ d' ∈ moved ++ moved', d.file = d'.file)
    (front : ∀ d ∈ document ++ inner, d.position.line ≤ line)
    (behind : ∀ d ∈ moved ++ moved', line < d.position.line) :
    sortedDiagnostics ((document ++ moved) ++ (inner ++ moved')) =
      sortedDiagnostics (document ++ inner) ++ sortedDiagnostics (moved ++ moved') := by
  let isFront (d : Diagnostic) : Bool := decide (d.position.line ≤ line)
  have hfront : ∀ d ∈ document ++ inner, isFront d = true := fun d hd => decide_eq_true (front d hd)
  have hbehind : ∀ d ∈ moved ++ moved', isFront d = false := fun d hd =>
    decide_eq_false (Nat.not_le_of_lt (behind d hd))
  have hmem : ∀ d ∈ (document ++ moved) ++ (inner ++ moved'),
      d ∈ document ++ inner ∨ d ∈ moved ++ moved' := by
    intro d hd
    simp only [List.mem_append] at hd ⊢
    tauto
  rw [sortedDiagnostics_split (p := isFront)]
  · rw [List.forall_mem_append] at hfront hbehind
    have hchosen : ∀ {ds : List Diagnostic}, (∀ d ∈ ds, isFront d = true) →
        ds.filter isFront = ds ∧ ds.filter (!isFront ·) = [] := fun h =>
      ⟨List.filter_eq_self.mpr h, List.filter_eq_nil_iff.mpr fun d hd => by simp [h d hd]⟩
    have hleft : ∀ {ds : List Diagnostic}, (∀ d ∈ ds, isFront d = false) →
        ds.filter isFront = [] ∧ ds.filter (!isFront ·) = ds := fun h =>
      ⟨List.filter_eq_nil_iff.mpr fun d hd => by simp [h d hd],
        List.filter_eq_self.mpr fun d hd => by simp [h d hd]⟩
    simp only [List.filter_append, hchosen hfront.1, hchosen hfront.2, hleft hbehind.1,
      hleft hbehind.2, List.append_nil, List.nil_append]
  · intro d hd d' hd' hisFront hnot
    have hd := (hmem d hd).resolve_right fun h => by simp [hbehind d h] at hisFront
    have hd' := (hmem d' hd').resolve_left fun h => by simp [hfront d' h] at hnot
    have hline : d.position.line < d'.position.line :=
      Nat.lt_of_le_of_lt (front d hd) (behind d' hd')
    have hfile : Path.compare d'.file d'.file = .eq := Std.ReflCmp.compare_self
    rw [Diagnostic.compare, file d hd d' hd', hfile, Nat.compare_eq_lt.mpr hline]
    rfl

end Joined

/-! ### The report -/

section Check

variable {settings : Settings} {linter : Linter} {path a b : String} {first second : Nat}
  {items others : List (Item Node)} {values more : List Yaml.Value} {p q : Playbook}

theorem playCount_joined {a b : List Char} :
    (Playbook.joined a b second p q).playCount = p.playCount + q.playCount := by
  rw [playCount, plays, Playbook.joined, List.filterMap_append, plays_moved, plays_moved,
    List.length_append, List.length_map, List.length_map]
  rfl

theorem taskCount_joined {a b : List Char} :
    (Playbook.joined a b second p q).taskCount = p.taskCount + q.taskCount := by
  have hsum : ∀ p : Playbook, p.taskCount = (p.plays.map Play.taskCount).sum := by
    intro p
    rw [Playbook.taskCount, List.sum_eq_foldl, List.foldl_map]
  have hmoved : ∀ (r : Relocation) (blocks : List Block),
      ((blocks.map (Block.moved r)).filterMap Block.play?).map Play.taskCount =
        (blocks.filterMap Block.play?).map Play.taskCount := by
    intro r blocks
    rw [plays_moved, List.map_map]
    exact List.map_congr_left fun play _ => play.taskCount_moved r
  rw [hsum, hsum, hsum, plays, Playbook.joined, List.filterMap_append, List.map_append, hmoved,
    hmoved, List.sum_append]
  rfl

/-- **Both texts sorted.** Apart from what the rules on blank lines find at the first
block of the second text, the sorted findings are those of the first text and then
those of the second at moved lines. -/
theorem sorted_findings_joined (joins : Joins a.toList b.toList first second items others)
    (build : Playbook.build path a.toList (.sequence values) = .ok p)
    (build' : Playbook.build path b.toList (.sequence more) = .ok q)
    (load : Playbook.load path a = .ok p) (load' : Playbook.load path b = .ok q)
    (extension : Rule.extensionRemark? settings.conventions.extensions path .start = none) :
    ∃ moved, List.Forall₂ (Diagnostic.Moved (· + (splitLines a.toList).length))
        (Report.sortedDiagnostics (Registry.builtin.findings settings q)) moved ∧
      (Report.sortedDiagnostics (Registry.builtin.findings settings
          (Playbook.joined a.toList b.toList second p q))).filter
            (!·.atBlock (second + (splitLines a.toList).length)) =
        Report.sortedDiagnostics (Registry.builtin.findings settings p) ++ moved := by
  have hmono : StrictMono (· + (splitLines a.toList).length) := fun m n h =>
    Nat.add_lt_add_right h _
  obtain ⟨document, inner, moved, moved', hfindings, hmoved, hjoined⟩ :=
    findings_joined joins build build' (visits_onLineOf load) extension
  have hfront : ∀ d ∈ document ++ inner,
      d.file = path ∧ d.position.line ≤ (splitLines a.toList).length := by
    rw [← hfindings]
    exact fun d hd => ⟨(Registry.file_of_mem_findings hd).trans (path_of_build build),
      (Registry.findings_inside (visits_onLineOf load) hd).2⟩
  have hbehind : ∀ d ∈ moved ++ moved',
      d.file = path ∧ (splitLines a.toList).length < d.position.line := by
    intro d' hd'
    obtain ⟨d, hd, hdd'⟩ := exists_of_mem_right hmoved hd'
    have hline := (Registry.findings_inside (visits_onLineOf load') hd).1
    rw [hdd'.file_eq, hdd'.position_eq]
    exact ⟨(Registry.file_of_mem_findings hd).trans (path_of_build build'),
      Nat.lt_add_of_pos_left hline⟩
  have hsorted := Report.sortedDiagnostics_joined
    (fun d hd d' hd' => (hfront d hd).1.trans (hbehind d' hd').1.symm)
    (fun d hd => (hfront d hd).2) fun d hd => (hbehind d hd).2
  have hlevel : ∀ d d' : Diagnostic, Diagnostic.compare d d' = .eq → ∀ line,
      (!d.atBlock line) = !d'.atBlock line := by
    intro d d' hcompare line
    obtain ⟨-, hposition, hrule⟩ := Diagnostic.compare_eq_eq_iff.mp hcompare
    rw [Diagnostic.atBlock, Diagnostic.atBlock, hposition, hrule]
  rw [← hjoined, Report.sortedDiagnostics_filter_of_level fun d _ d' _ h => hlevel d d' h _,
    ← hfindings] at hsorted
  exact ⟨_, Report.sortedDiagnostics_forall₂ hmoved
    (fun _ _ _ _ _ _ hd hd' => hd.compare_eq hmono hd')
    fun _ _ _ _ _ _ hd hd' => hd.same_eq hmono.injective hd', hsorted⟩

/-- **Plays are looked at apart from each other.** If two texts are accepted, stand
behind one another and have the joined value, both together are accepted exactly if
no line of the first is left over. Then, apart from what the rules on blank lines
find at the first block of the second, the report on both is the report on the first
followed by that on the second at moved lines; and plays and tasks add up. -/
theorem Linter.check_append (accepted : Linter.ofSettings settings = .ok linter)
    (extension : Rule.extensionRemark? settings.conventions.extensions path .start = none)
    (parsed : Playbook.parse path a = .ok p) (parsed' : Playbook.parse path b = .ok q)
    (joins : Joins a.toList b.toList first second items others)
    (read : ∀ values more, Yaml.Value.read a = .ok (.sequence values) →
      Yaml.Value.read b = .ok (.sequence more) →
        Yaml.Value.read (a ++ b) = .ok (.sequence (values ++ more))) :
    ((∃ whole, linter.check path (a ++ b) = .ok whole) ↔
      (node (.ofText a.toList)).1.2.lines = []) ∧
    ∀ whole, linter.check path (a ++ b) = .ok whole → ∃ report report' moved,
      linter.check path a = .ok report ∧ linter.check path b = .ok report' ∧
      List.Forall₂ (Diagnostic.Moved (· + (splitLines a.toList).length))
        report'.diagnostics moved ∧
      whole.diagnostics.filter (!·.atBlock (second + (splitLines a.toList).length)) =
        report.diagnostics ++ moved ∧
      whole.files = report.files ∧ whole.failed = report.failed ∧
      whole.plays = report.plays + report'.plays ∧ whole.tasks = report.tasks + report'.tasks := by
  obtain ⟨value, hread, build⟩ := exists_read_of_parse parsed
  obtain ⟨value', hread', build'⟩ := exists_read_of_parse parsed'
  obtain ⟨-, -, -, -, values, rfl, -⟩ := exists_blocksOf_of_build build
  obtain ⟨-, -, -, -, more, rfl, -⟩ := exists_blocksOf_of_build build'
  have hload := load_eq_of_build hread build
  have hload' := load_eq_of_build hread' build'
  have hwhole := read values more hread hread'
  by_cases passed : (node (.ofText a.toList)).1.2.lines = []
  · have hbuild := build_append joins passed build build'
    rw [← String.toList_append] at hbuild
    have hchecked := Linter.check_of_load accepted (load_eq_of_build hwhole hbuild)
    refine ⟨iff_of_true ⟨_, hchecked⟩ passed, fun whole h => ?_⟩
    obtain rfl := Except.ok.inj (hchecked.symm.trans h)
    obtain ⟨moved, hmoved, hsorted⟩ :=
      sorted_findings_joined joins build build' hload hload' extension
    exact ⟨_, _, moved, Linter.check_of_load accepted hload, Linter.check_of_load accepted hload',
      hmoved, hsorted, rfl, rfl, playCount_joined, taskCount_joined⟩
  · have hbuild := build_append_of_left_over joins passed build build'
    have hroot := joins.scan_append_of_left_over passed
    rw [← String.toList_append] at hbuild hroot
    have hrefused : ∀ whole, linter.check path (a ++ b) ≠ .ok whole := by
      rintro whole hchecked
      rw [Linter.check, Playbook.load, isEncryptedContent_eq_false hroot, Playbook.parse,
        hwhole] at hchecked
      simp only [hbuild] at hchecked
      cases hchecked
    exact ⟨iff_of_false (not_exists.mpr hrefused) passed,
      fun whole h => absurd h (hrefused whole)⟩

/-- Two plays with a blank before a colon, one behind the other: the findings are those
at each, the second a line further down. -/
theorem Linter.check_append_hosts :
    let a := "- hosts : all\n"
    let b := "- hosts : web\n"
    ∃ (linter : Linter) (whole report report' : Report) (moved : List Diagnostic),
      Linter.ofSettings {} = .ok linter ∧ linter.check "site.yml" (a ++ b) = .ok whole ∧
      linter.check "site.yml" a = .ok report ∧ linter.check "site.yml" b = .ok report' ∧
      report.diagnostics.map Diagnostic.position = [⟨1, 3⟩] ∧
      report'.diagnostics.map Diagnostic.position = [⟨1, 3⟩] ∧
      List.Forall₂ (Diagnostic.Moved (· + 1)) report'.diagnostics moved ∧
      whole.diagnostics.filter (!·.atBlock 2) = report.diagnostics ++ moved ∧
      whole.plays = report.plays + report'.plays := by
  intro a b
  let linter : Linter := ⟨{}, .builtin, by decide⟩
  let play (hosts : String) : Yaml.Value := .mapping [(.string "hosts", .string hosts)]
  have accepted : Linter.ofSettings {} = .ok linter := rfl
  have extension : Rule.extensionRemark? ({} : Settings).conventions.extensions "site.yml" .start =
      none := by decide
  have value : Yaml.Value.read "- hosts : all\n" = .ok (.sequence [play "all"]) := by
    with_unfolding_all rfl
  have value' : Yaml.Value.read "- hosts : web\n" = .ok (.sequence [play "web"]) := by
    with_unfolding_all rfl
  have values : Yaml.Value.read ("- hosts : all\n" ++ "- hosts : web\n") =
      .ok (.sequence [play "all", play "web"]) := by
    with_unfolding_all rfl
  have parses : ∀ text ∈ [a, b], ∃ p, Playbook.parse "site.yml" text = .ok p := by
    have hparses : ∀ text ∈ [a, b], (Playbook.parse "site.yml" text).toOption.isSome := by
      decide +kernel
    intro text htext
    cases hparsed : Playbook.parse "site.yml" text with
    | error problem => simpa [hparsed, Except.toOption] using hparses text htext
    | ok p => exact ⟨p, rfl⟩
  have lines : LogicalLine.ofText a.toList = [⟨1, 0, "- hosts : all".toList⟩] := by decide
  have lines' : LogicalLine.ofText b.toList = [⟨1, 0, "- hosts : web".toList⟩] := by decide
  have root := congrArg Outline.root (scan_of_items lines rfl (by decide) (items_at 0 _))
  have root' := congrArg Outline.root (scan_of_items lines' rfl (by decide) (items_at 0 _))
  have plain : ∀ line ∈ LogicalLine.ofText a.toList, ∀ c ∈ line.text,
      c ∉ ['"', '\'', '\x7b', '['] := by
    have hfree : "- hosts : all".toList.all (· ∉ ['"', '\'', '\x7b', '[']) := by decide
    rw [lines, List.forall_mem_singleton]
    exact fun c hc => by simpa using List.all_eq_true.mp hfree c hc
  have hmem : a ∈ [a, b] ∧ b ∈ [a, b] := by simp
  obtain ⟨p, hp⟩ := parses a hmem.1
  obtain ⟨q, hq⟩ := parses b hmem.2
  have joins : Joins a.toList b.toList 1 1 _ _ :=
    ⟨by decide, root, root', (Outline.scan_placed _).everywhere.imp fun place _ =>
      not_staysOpen plain place⟩
  obtain ⟨haccepted, happend⟩ := Linter.check_append accepted extension hp hq joins
    fun _ _ h h' => by
      cases value.symm.trans h
      cases value'.symm.trans h'
      exact values
  obtain ⟨whole, hwhole⟩ := haccepted.mpr (by decide +kernel)
  obtain ⟨report, report', moved, hreport, hreport', hmoved, hfilter, -, -, hplays, -⟩ :=
    happend whole hwhole
  have positions : ∀ text ∈ [a, b], (linter.check "site.yml" text).toOption.map
      (·.diagnostics.map Diagnostic.position) = some [⟨1, 3⟩] := by decide +kernel
  have hposition := positions a hmem.1
  have hposition' := positions b hmem.2
  have length : (splitLines a.toList).length = 1 := by decide
  rw [hreport] at hposition
  rw [hreport'] at hposition'
  rw [length] at hmoved hfilter
  exact ⟨linter, whole, report, report', moved, accepted, hwhole, hreport, hreport',
    Option.some.inj hposition, Option.some.inj hposition', hmoved, hfilter, hplays⟩

end Check

end PlaybookStyle
