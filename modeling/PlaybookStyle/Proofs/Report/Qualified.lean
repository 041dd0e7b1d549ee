/-
Reports on a text with a collection before the name of one module.

The line of the key is indented as before, so the document is found fault with as before. On
that line nothing stands behind the key but the text that the module is called with
(`Registry.findings_beside`). If that is pushed to the right, it passes nothing
(`Outline.Entry.compare_pushing`). So findings keep their order, and since those that name
the module are told by their leads, the same of them are repeats.

* `Linter.check_qualified` — lines, rules and severities of the findings stay.
-/

import PlaybookStyle.Proofs.Conforming.Build
import PlaybookStyle.Proofs.Outline.Beginnings
import PlaybookStyle.Proofs.Report.Moving
import PlaybookStyle.Proofs.Rule.Findings
import PlaybookStyle.Proofs.Rule.Indentation
import PlaybookStyle.Proofs.Rule.Respelling

namespace PlaybookStyle

open Text Playbook
open Outline (Node)

/-! ### The indentation of a line with a key -/

/-- A line cut at something that neither indents nor opens a comment. -/
structure CutAt (line before : List Char) (c : Char) : Prop where
  cut : ∃ rest, line = before ++ c :: rest
  indent : Rule.isIndent c = false
  comment : (c == '#') = false

namespace CutAt

variable {line line' before : List Char} {c c' : Char}

theorem takeWhile_eq (h : CutAt line before c) :
    line.takeWhile Rule.isIndent = before.takeWhile Rule.isIndent := by
  obtain ⟨rest, rfl⟩ := h.cut
  rw [List.takeWhile_append, List.takeWhile_cons, if_neg (Bool.eq_false_iff.mp h.indent)]
  split
  · rename_i hlength
    rw [List.append_nil, (List.takeWhile_prefix _).eq_of_length hlength]
  · rfl

theorem isAbsent_dropWhile (h : CutAt line before c) :
    Outline.isAbsent (line.dropWhile Rule.isIndent) =
      ((before.dropWhile Rule.isIndent).head?.any (· == '#')) := by
  obtain ⟨rest, rfl⟩ := h.cut
  induction before with
  | nil =>
    rw [List.nil_append, List.dropWhile_cons, if_neg (Bool.eq_false_iff.mp h.indent)]
    exact h.comment
  | cons d more ih =>
    rw [List.cons_append, List.dropWhile_cons, List.dropWhile_cons]
    split
    · exact ih ⟨⟨rest, rfl⟩, h.indent, h.comment⟩
    · rfl

/-- Of a line it is told by what is before the cut whether it is indented well. -/
theorem indentRemark?_eq (h : CutAt line before c) (h' : CutAt line' before c') (number : Nat) :
    Rule.indentRemark? number line' = Rule.indentRemark? number line := by
  rw [Rule.indentRemark?_eq, Rule.indentRemark?_eq, h.takeWhile_eq, h'.takeWhile_eq,
    h.isAbsent_dropWhile, h'.isAbsent_dropWhile]

/-- What is wrong with the indentation is not behind the cut. -/
theorem column_le (h : CutAt line before c) {number : Nat} {remark : Remark}
    (found : Rule.indentRemark? number line = some remark) :
    remark.position.line = number ∧ remark.position.column ≤ byteLength before + 1 := by
  rw [Rule.indentRemark?_eq, h.takeWhile_eq] at found
  split at found
  · cases found
  · split at found
    · rename_i htab
      obtain rfl := Option.some.inj found
      have htab : '\t' ∈ before.takeWhile Rule.isIndent := List.contains_iff_mem.mp htab
      have hindex := List.idxOf_lt_length_of_mem htab
      have hall : (before.takeWhile Rule.isIndent).all Rule.isIndent = true := List.all_takeWhile
      have hlength := Rule.byteLength_eq_length_of_indent hall
      have hsplit := congrArg byteLength (List.takeWhile_append_dropWhile (p := Rule.isIndent) (l := before))
      rw [byteLength_append] at hsplit
      exact ⟨rfl, by dsimp only; omega⟩
    · split at found
      · obtain rfl := Option.some.inj found
        exact ⟨rfl, Nat.le_add_left _ _⟩
      · cases found

/-- A line with a key is cut before it, also in the line view of a text. -/
theorem of_trimEnd {text rest : List Char} (head : text = c :: rest) (kept : trimEnd text ≠ [])
    (indent : Rule.isIndent c = false) (comment : (c == '#') = false) :
    CutAt (trimEndOf (· == '\r') (before ++ text)) before c := by
  obtain ⟨cut, hcut, hall⟩ := exists_append_trimEndOf (· == '\r') text
  have hne : trimEndOf (· == '\r') text ≠ [] := by
    intro hnone
    rw [hnone, List.nil_append] at hcut
    have hblank := trimEndOf_append_of_all (all_isBlank_of_returns hall) []
    rw [List.nil_append, hcut] at hblank
    exact kept hblank
  refine ⟨?_, indent, comment⟩
  rw [trimEndOf_append_of_ne_nil hne]
  cases hshort : trimEndOf (· == '\r') text with
  | nil => exact absurd hshort hne
  | cons d more =>
    rw [hshort, head, List.cons_append] at hcut
    rw [(List.cons.inj hcut).1]
    exact ⟨more, rfl⟩

end CutAt

/-! ### What is found about the document -/

section Document

variable {settings : Settings} {path : String} {p : Playbook} {above below : List (List Char)}
  {line line' before : List Char} {c c' : Char}

theorem indentRemarks_replace {skip : Nat → Bool}
    (same : ∀ number, Rule.indentRemark? number line' = Rule.indentRemark? number line)
    (numbers : List Nat) (above below : List (List Char)) :
    Rule.indentRemarks skip (numbers.zip (above ++ line' :: below)) =
      Rule.indentRemarks skip (numbers.zip (above ++ line :: below)) := by
  unfold Rule.indentRemarks
  induction above generalizing numbers with
  | nil =>
    cases numbers with
    | nil => rfl
    | cons number rest =>
      rw [List.nil_append, List.nil_append, List.zip_cons_cons, List.zip_cons_cons,
        List.filterMap_cons, List.filterMap_cons]
      simp only [same]
  | cons first more ih =>
    cases numbers with
    | nil => rfl
    | cons number rest =>
      rw [List.cons_append, List.cons_append, List.zip_cons_cons, List.zip_cons_cons,
        List.filterMap_cons, List.filterMap_cons, ih]

/-- About a document whose line has another key nothing else is found. -/
theorem findingsAt_document_replace {source : SourceLines} (encrypted : p.encrypted = false)
    (lines : p.source.lines = above ++ line :: below) (lines' : source.lines = above ++ line' :: below)
    (same : ∀ number, Rule.indentRemark? number line' = Rule.indentRemark? number line)
    (blocks : List Block) :
    Registry.builtin.findingsAt settings path
        (.alone (.document { p with blocks := blocks, source := source })) =
      Registry.builtin.findingsAt settings path (.alone (.document p)) := by
  have hremarks : Rule.indentRemarks p.isVerbatim source.numbered =
      Rule.indentRemarks p.isVerbatim p.source.numbered := by
    rw [SourceLines.numbered, SourceLines.numbered, SourceLines.size, SourceLines.size, lines, lines',
      indentRemarks_replace same]
    simp only [List.length_append, List.length_cons]
  simp only [Registry.findingsAt, Visit.alone, Part.kind, Rule.rulesFor_document]
  refine List.flatMap_congr fun rule hrule => ?_
  rw [Rule.findings_eq, Rule.findings_eq]
  simp only [List.mem_cons, List.not_mem_nil, or_false] at hrule
  rcases hrule with rfl | rfl | rfl
  · have hencrypted : ({ p with blocks := blocks, source := source } : Playbook).encrypted = false :=
      encrypted
    rw [Rule.indentation_remarks hencrypted, Rule.indentation_remarks encrypted, ← hremarks]
    rfl
  · rfl
  · rfl

end Document

/-! ### Places on the line of the key -/

section Places

variable {path content : String} {playbook : Playbook} {settings : Settings}
  {e : Outline.Entry Node} {above below : List (List Char)} {line before : List Char} {c : Char}

/-- Nothing is found behind the key on its line but at its value. -/
theorem Registry.findings_beside (parsed : Playbook.parse path content = .ok playbook)
    (he : e ∈ (Outline.scan content.toList).root.allEntries)
    (lines : (SourceLines.ofText content.toList).lines = above ++ line :: below)
    (number : above.length + 1 = e.position.line) (column : byteLength before + 1 = e.position.column)
    (cut : CutAt line before c) {d : Diagnostic} (hd : d ∈ builtin.findings settings playbook) :
    e.Beside d.position := by
  obtain ⟨value, build⟩ := exists_build_of_parse parsed
  obtain ⟨source, items, position, root, values, -, made⟩ := exists_blocksOf_of_build build
  have beside := Outline.scan_on_line content.toList he
  rw [root] at beside
  have hblocks : PartsAt e.Beside (visitsOfBlocks none playbook.blocks) := by
    cases beside with
    | sequence positions values =>
      exact visitsOfBlocks_partsAt (blocksOf_everywhere positions values made) none
  have hstart : e.Beside .start := fun _ => .inl (by
    rw [← column]
    exact Nat.le_add_left _ _)
  obtain ⟨visit, hvisit, hd⟩ := List.mem_flatMap.mp hd
  rw [Playbook.visits, List.mem_cons] at hvisit
  rcases hvisit with rfl | hvisit
  · obtain ⟨rule, hrule, remark, hremark, rfl⟩ := exists_remark_of_mem_findingsAt hd
    change rule ∈ Registry.builtin.rulesFor .document at hrule
    rw [Rule.rulesFor_document] at hrule
    simp only [List.mem_cons, List.not_mem_nil, or_false] at hrule
    rcases hrule with rfl | rfl | rfl
    · simp only [Rule.indentation, Visit.alone] at hremark
      split at hremark
      · cases hremark
      · obtain ⟨⟨n, found⟩, hfound, hremark⟩ := List.mem_filterMap.mp hremark
        dsimp only at hremark
        split at hremark
        · cases hremark
        · intro same
          obtain ⟨i, rfl, hi⟩ := Rule.line_of_mem_numbered hfound
          rw [source, lines] at hi
          by_cases hline : i = above.length
          · rw [hline, List.getElem?_append_right (Nat.le_refl _), Nat.sub_self] at hi
            obtain rfl : line = found := Option.some.inj hi
            exact .inl ((cut.column_le hremark).2.trans column.le)
          · have hnumber : remark.position.line = i + 1 := by
              obtain ⟨before, after, -, hposition⟩ := Rule.indentRemark?_position hremark
              rw [hposition]
            exact absurd (hnumber.symm.trans same) (by omega)
    · simp only [Rule.fileExtension, Visit.alone] at hremark
      split at hremark
      · cases hremark
      · rw [Rule.finding, Rule.extensionRemark?_position (Option.mem_toList.mp hremark)]
        exact hstart
    · simp only [Rule.vaultFileExtension, Visit.alone] at hremark
      split at hremark
      · rw [Rule.finding, Rule.vaultRemark?_position (Option.mem_toList.mp hremark)]
        exact hstart
      · cases hremark
  · exact findingsAt_inside (hblocks visit hvisit) hd

/-- Where a place goes if what a key is called with is pushed to the right. -/
def Outline.Entry.pushing (columns : Nat) (e : Outline.Entry Node) (place : Position) : Position :=
  match e.value with
  | .scalar s => if place = s.position then (s.pushed e.position.line columns).position else place
  | _ => place

/-- The order of places. -/
def Position.compare (p q : Position) : Ordering :=
  (Ord.compare p.line q.line).then (Ord.compare p.column q.column)

/-- Two places on one line compare alike with a third that is before both, if it is on their
line. -/
theorem Position.compare_eq_of_line {a b p : Position} (line : a.line = b.line)
    (before : p.line = b.line → p.column < a.column ∧ p.column < b.column) :
    a.compare p = b.compare p ∧ p.compare a = p.compare b := by
  unfold compare
  rw [line]
  rcases Nat.lt_trichotomy p.line b.line with h | h | h
  · rw [Nat.compare_eq_gt.mpr h, Nat.compare_eq_lt.mpr h]
    exact ⟨rfl, rfl⟩
  · obtain ⟨ha, hb⟩ := before h
    rw [Nat.compare_eq_gt.mpr ha, Nat.compare_eq_gt.mpr hb, Nat.compare_eq_lt.mpr ha,
      Nat.compare_eq_lt.mpr hb]
    exact ⟨rfl, rfl⟩
  · rw [Nat.compare_eq_lt.mpr h, Nat.compare_eq_gt.mpr h]
    exact ⟨rfl, rfl⟩

/-- Places keep their order where the value of a key is pushed to the right. -/
theorem Outline.Entry.compare_pushing {columns : Nat} {p q : Position}
    (behind : ∀ s, e.value = .scalar s → e.position.Before s.position) (hp : e.Beside p)
    (hq : e.Beside q) : (e.pushing columns p).compare (e.pushing columns q) = p.compare q := by
  unfold pushing
  cases hvalue : e.value with
  | scalar s =>
    dsimp only
    by_cases hline : s.position.line = e.position.line
    · have hcolumn : e.position.column < s.position.column :=
        (behind s hvalue).resolve_left (by omega) |>.2
      have hpushed : (s.pushed e.position.line columns).position =
          ⟨e.position.line, s.position.column + columns⟩ := by
        rw [Outline.Scalar.pushed, if_pos hline]
      have hrest : ∀ {place}, e.Beside place → place ≠ s.position →
          Position.compare ⟨e.position.line, s.position.column + columns⟩ place =
              s.position.compare place ∧
            place.compare ⟨e.position.line, s.position.column + columns⟩ =
              place.compare s.position := by
        intro place beside hne
        refine Position.compare_eq_of_line hline.symm fun same => ?_
        dsimp only
        rcases beside (same.trans hline) with hle | ⟨other, hother, rfl⟩
        · omega
        · obtain rfl := Outline.Node.scalar.inj (hvalue.symm.trans hother)
          exact absurd rfl hne
      rw [hpushed]
      by_cases hps : p = s.position <;> by_cases hqs : q = s.position
      · rw [if_pos hps, if_pos hqs, hps, hqs]
        simp [Position.compare]
      · rw [if_pos hps, if_neg hqs, hps]
        exact (hrest hq hqs).1
      · rw [if_neg hps, if_pos hqs, hqs]
        exact (hrest hp hps).2
      · rw [if_neg hps, if_neg hqs]
    · have hself : s.pushed e.position.line columns = s := if_neg hline
      have hstays : ∀ place : Position,
          (if place = s.position then (s.pushed e.position.line columns).position else place) =
            place := by
        intro place
        rw [hself]
        split
        · rename_i hplace
          exact hplace.symm
        · rfl
      rw [hstays, hstays]
  | _ => rfl

/-- Findings are ordered by their files, then by their places, then by their rules. -/
theorem Diagnostic.compare_eq_then (a b : Diagnostic) :
    Diagnostic.compare a b = (Path.compare a.file b.file).then
      ((a.position.compare b.position).then (Ord.compare a.rule b.rule)) := by
  rw [Diagnostic.compare, Position.compare, Ordering.then_assoc]

/-- Equal places are told by their order. -/
theorem Position.compare_eq_eq_iff {p q : Position} : p.compare q = .eq ↔ p = q := by
  obtain ⟨line, column⟩ := p
  obtain ⟨line', column'⟩ := q
  simp [compare, Ordering.then_eq_eq]

/-- A place that is found again goes where the value is pushed to. -/
theorem Playbook.ModuleCall.Shifts.eq_pushing {word : List Char} {place place' : Position}
    (h : (ModuleCall.ofEntry e).Shifts (.ofEntry (e.qualified word)) place place')
    (behind : ∀ s, e.value = .scalar s → e.position.Before s.position)
    (beside : (e.qualified word).Beside place') (nonempty : 0 < byteLength word) :
    place' = e.pushing (byteLength word) place := by
  cases h with
  | stays =>
    unfold Outline.Entry.pushing
    split
    · rename_i s hvalue
      split
      · rename_i hplace
        by_cases hline : s.position.line = e.position.line
        · -- The text does not begin there any more.
          have hcolumn : e.position.column < s.position.column :=
            (behind s hvalue).resolve_left (by omega) |>.2
          rcases beside (hplace ▸ hline) with hle | ⟨other, hother, hstart⟩
          · rw [hplace] at hle
            exact absurd hcolumn (Nat.not_lt.mpr hle)
          · rw [Outline.Entry.qualified, hvalue] at hother
            obtain rfl := Outline.Node.scalar.inj hother
            rw [hplace, Outline.Scalar.pushed, if_pos hline] at hstart
            have hcolumns := congrArg Position.column hstart
            dsimp only at hcolumns
            omega
        · rw [Outline.Scalar.pushed, if_neg hline, hplace]
      · rfl
    · rfl
  | args old new =>
    obtain ⟨s, hvalue, hposition⟩ := Rule.exists_scalar_of_args old
    obtain ⟨s', hvalue', hposition'⟩ := Rule.exists_scalar_of_args new
    rw [Outline.Entry.qualified, hvalue] at hvalue'
    obtain rfl := Outline.Node.scalar.inj hvalue'
    rw [← hposition, ← hposition', Outline.Entry.pushing, hvalue]
    exact (if_pos rfl).symm

/-- What is found again stays on its line. -/
theorem Playbook.ModuleCall.Shifts.line_eq {word : List Char} {place place' : Position}
    (h : (ModuleCall.ofEntry e).Shifts (.ofEntry (e.qualified word)) place place') :
    place'.line = place.line := by
  cases h with
  | stays => rfl
  | args old new =>
    obtain ⟨s, hvalue, hposition⟩ := Rule.exists_scalar_of_args old
    obtain ⟨s', hvalue', hposition'⟩ := Rule.exists_scalar_of_args new
    rw [Outline.Entry.qualified, hvalue] at hvalue'
    obtain rfl := Outline.Node.scalar.inj hvalue'
    rw [← hposition, ← hposition', Outline.Scalar.pushed]
    split
    · rename_i hline
      exact hline.symm
    · rfl

end Places

/-! ### Findings in other words -/

section Words

/-- Findings that differ at most in their places and in words on a module. -/
structure Diagnostic.Rewords (d d' : Diagnostic) : Prop where
  file : d'.file = d.file
  rule : d'.rule = d.rule
  severity : d'.severity = d.severity
  category : d'.category = d.category
  lead : leadOf d'.message = leadOf d.message
  words : d.NamesModule ∨ d'.message = d.message ∧ d'.suggestion? = d.suggestion?

variable {a a' b b' d d' : Diagnostic}

/-- Whether a finding names a module is told by its rule and its lead. -/
theorem Diagnostic.namesModule_congr (rule : a.rule = b.rule)
    (lead : leadOf a.message = leadOf b.message) : a.NamesModule ↔ b.NamesModule := by
  rw [NamesModule, NamesModule, rule, lead]

theorem Diagnostic.Rewords.symm (h : d.Rewords d') : d'.Rewords d :=
  ⟨h.file.symm, h.rule.symm, h.severity.symm, h.category.symm, h.lead.symm,
    h.words.imp (namesModule_congr h.rule h.lead).mpr fun same => ⟨same.1.symm, same.2.symm⟩⟩

theorem Diagnostic.Respelt.rewords {call call' : ModuleCall} (h : d.Respelt call call' d') :
    d.Rewords d' :=
  ⟨h.file, h.rule, h.severity, h.category, h.lead, h.words⟩

/-- Findings that are the same are so in other words, if what names a module is told by its
place. -/
theorem Diagnostic.Rewords.same (ha : a.Rewords a') (hb : b.Rewords b')
    (place : a.position = b.position → a'.position = b'.position)
    (told : a'.NamesModule → a'.rule = b'.rule → a'.position = b'.position →
      leadOf a'.message = leadOf b'.message → a' = b')
    (h : Diagnostic.same a b = true) : Diagnostic.same a' b' = true := by
  obtain ⟨file, rule, message, position, severity, category, suggestion⟩ := same_iff_parts.mp h
  have hrule : a'.rule = b'.rule := by rw [ha.rule, hb.rule, rule]
  have hlead : leadOf a'.message = leadOf b'.message := by rw [ha.lead, hb.lead, message]
  have hfile : Path.same a'.file b'.file = true := by rwa [ha.file, hb.file]
  by_cases names : a.NamesModule
  · have hnames := (namesModule_congr ha.rule ha.lead).mpr names
    rw [told hnames hrule (place position) hlead]
    exact same_equivalence.refl b'
  · have names' : ¬b.NamesModule := fun found =>
      names ((namesModule_congr rule (congrArg leadOf message)).mpr found)
    obtain ⟨hmessage, hsuggestion⟩ := ha.words.resolve_left names
    obtain ⟨hmessage', hsuggestion'⟩ := hb.words.resolve_left names'
    rw [same_iff_parts, hmessage, hmessage', hsuggestion, hsuggestion', ha.severity, hb.severity,
      ha.category, hb.category]
    exact ⟨hfile, hrule, message, place position, severity, category, suggestion⟩

end Words

/-! ### Reports -/

section Reports

variable {path content content' word : String} {playbook : Playbook} {settings : Settings}
  {linter : Linter} {values values' : List Yaml.Value} {t : Task} {call : ModuleCall}
  {e : Outline.Entry Node}

/-- Both texts have the line of the key cut before it. -/
theorem exists_cuts_at {word source source' : List Char} (hword : Outline.isWord word = true)
    (he : e ∈ (Outline.scan source).root.allEntries)
    (h : Outline.Qualifies word e.position source source') :
    ∃ above below line line' before c c', (SourceLines.ofText source).lines = above ++ line :: below ∧
      (SourceLines.ofText source').lines = above ++ line' :: below ∧
      CutAt line before c ∧ CutAt line' before c' ∧ above.length + 1 = e.position.line ∧
      byteLength before + 1 = e.position.column := by
  obtain @⟨above, below, before, text, short, long, number, column, starts, -⟩ := h
  obtain ⟨split, hkey⟩ := Outline.exists_splitKey_at he short number column
  have kept : trimEnd text ≠ [] := by
    intro hnone
    rw [hnone] at hkey
    cases hkey
  obtain ⟨c', more, head', starts'⟩ := Outline.exists_qualified_eq_cons hword text
  obtain ⟨hblank, -, -, -, hash'⟩ := Outline.not_isBlank_of_starts starts'
  have indent' : Rule.isIndent c' = false := by
    refine Bool.eq_false_iff.mpr fun indent => ?_
    rcases Bool.or_eq_true_iff.mp indent with h | h
    · rw [of_decide_eq_true h] at hblank
      cases hblank
    · rw [of_decide_eq_true h] at hblank
      cases hblank
  have kept' : trimEnd (Outline.qualified word text) ≠ [] := by
    rw [head', trimEnd_cons_of_not_isBlank hblank]
    exact List.cons_ne_nil _ _
  cases htext : text with
  | nil =>
    rw [htext] at kept
    exact absurd rfl kept
  | cons c rest =>
    have hstarts := starts c (by rw [htext]; rfl)
    have indent : Rule.isIndent c = false := by simp [Rule.isIndent, hstarts]
    have hash : c ≠ '#' := by
      rintro rfl
      rw [htext, trimEnd_cons_of_not_isBlank (by decide)] at hkey
      cases hkey
    refine ⟨above.map (trimEndOf (· == '\r')), below.map (trimEndOf (· == '\r')), _, _, before, c, c',
      ?_, ?_, .of_trimEnd htext kept indent (beq_eq_false_iff_ne.mpr hash),
      .of_trimEnd head' kept' indent' (beq_eq_false_iff_ne.mpr hash'), ?_, column⟩
    · rw [SourceLines.ofText, short, List.map_append, List.map_cons]
    · rw [SourceLines.ofText, long, List.map_append, List.map_cons]
    · rwa [List.length_map]

/-- What is found about a text with the collection is what is found about the text without
it, in other words and at other places. -/
theorem findings_qualified (settings : Settings) {blocks' : List Block} (encrypted : playbook.encrypted = false)
    (source : playbook.source = .ofText content.toList)
    (collection : word ∈ coreCollections) (he : e ∈ (Outline.scan content.toList).root.allEntries)
    (qualifies : Outline.Qualifies word.toList e.position content.toList content'.toList)
    (renames : t.Renames (.ofEntry e) (.ofEntry (e.qualified word.toList)))
    (matching : List.Forall₂ (Block.Matches (Part.Renamed t (.ofEntry e)
      (.ofEntry (e.qualified word.toList)))) playbook.blocks blocks') :
    List.Forall₂ (Diagnostic.Respelt (.ofEntry e) (.ofEntry (e.qualified word.toList)))
      (Registry.builtin.findings settings playbook)
      (Registry.builtin.findings settings
        { playbook with blocks := blocks', source := .ofText content'.toList }) := by
  obtain ⟨above, below, line, line', before, c, c', lines, lines', cut, cut', -, -⟩ :=
    exists_cuts_at (isWord_of_collection collection) he qualifies
  rw [Registry.findings, Registry.findings, visits, visits, List.flatMap_cons, List.flatMap_cons]
  refine List.rel_append ?_ (List.rel_flatMap (visitsOfBlocks_matches matching .none) ?_)
  · rw [findingsAt_document_replace encrypted (source ▸ lines) lines' (cut.indentRemark?_eq cut')
      blocks', List.forall₂_same]
    exact fun d _ => .refl d
  · exact fun visit visit' h => Registry.findingsAt_respelt renames h

/-- Findings in other words are sorted alike, if the places of both are the right ones. -/
theorem sorted_qualified {playbook' : Playbook} (parsed : Playbook.parse path content = .ok playbook)
    (parsed' : Playbook.parse path content' = .ok playbook')
    (hword : Outline.isWord word.toList = true)
    (he : e ∈ (Outline.scan content.toList).root.allEntries)
    (qualifies : Outline.Qualifies word.toList e.position content.toList content'.toList)
    (findings : List.Forall₂ (Diagnostic.Respelt (.ofEntry e) (.ofEntry (e.qualified word.toList)))
      (Registry.builtin.findings settings playbook) (Registry.builtin.findings settings playbook')) :
    List.Forall₂ (Diagnostic.Respelt (.ofEntry e) (.ofEntry (e.qualified word.toList)))
      (Report.sortedDiagnostics (Registry.builtin.findings settings playbook))
      (Report.sortedDiagnostics (Registry.builtin.findings settings playbook')) := by
  have he' : e.qualified word.toList ∈ (Outline.scan content'.toList).root.allEntries := by
    rw [Outline.scan_qualified hword he qualifies]
    exact (Outline.scan_alone _ he).mem_allEntries_edit he
  have nonempty : 0 < byteLength word.toList := by
    cases hchars : word.toList with
    | nil =>
      rw [hchars] at hword
      cases hword
    | cons c rest =>
      have := c.utf8Size_pos
      rw [byteLength_cons]
      omega
  have behind : ∀ s, e.value = .scalar s → e.position.Before s.position := fun s value =>
    Outline.scan_value_behind _ he value
  obtain ⟨above, below, line, line', before, c, c', lines, lines', cut, cut', number, column⟩ :=
    exists_cuts_at hword he qualifies
  have beside : ∀ d ∈ Registry.builtin.findings settings playbook, e.Beside d.position :=
    fun d => Registry.findings_beside parsed he lines number column cut
  have beside' : ∀ d ∈ Registry.builtin.findings settings playbook',
      (e.qualified word.toList).Beside d.position :=
    fun d => Registry.findings_beside parsed' he' lines' number column cut'
  let R := fun d d' : Diagnostic => d.Respelt (.ofEntry e) (.ofEntry (e.qualified word.toList)) d' ∧
    d' ∈ Registry.builtin.findings settings playbook'
  have related : List.Forall₂ R (Registry.builtin.findings settings playbook)
      (Registry.builtin.findings settings playbook') := by
    obtain ⟨length, hall⟩ := List.forall₂_iff_zip.mp findings
    exact List.forall₂_iff_zip.mpr ⟨length, fun hpair => ⟨hall hpair, (List.of_mem_zip hpair).2⟩⟩
  have position : ∀ {d d'}, R d d' → d'.position = e.pushing (byteLength word.toList) d.position :=
    fun h => h.1.position.eq_pushing behind (beside' _ h.2) nonempty
  have places : ∀ {a b a' b'}, a ∈ Registry.builtin.findings settings playbook →
      b ∈ Registry.builtin.findings settings playbook → R a a' → R b b' →
        a'.position.compare b'.position = a.position.compare b.position := by
    intro a b a' b' hmem hmem' ha hb
    rw [position ha, position hb, Outline.Entry.compare_pushing behind (beside a hmem) (beside b hmem')]
  refine (Report.sortedDiagnostics_forall₂ related ?_ ?_).imp fun _ _ h => h.1
  · intro a hmem b hmem' a' b' ha hb
    rw [Diagnostic.compare_eq_then, Diagnostic.compare_eq_then, places hmem hmem' ha hb, ha.1.file,
      hb.1.file, ha.1.rule, hb.1.rule]
  · intro a hmem b hmem' a' b' ha hb
    have place : a'.position = b'.position ↔ a.position = b.position := by
      rw [← Position.compare_eq_eq_iff, places hmem hmem' ha hb, Position.compare_eq_eq_iff]
    rw [Bool.eq_iff_iff]
    refine ⟨ha.1.rewords.symm.same hb.1.rewords.symm place.mp ?_,
      ha.1.rewords.same hb.1.rewords place.mpr ?_⟩
    · exact Registry.findings_eq_of_lead parsed hmem hmem'
    · exact Registry.findings_eq_of_lead parsed' ha.2 hb.2

/-- **Qualified names of modules make no difference.** If a task of an accepted playbook calls
a module by its bare name and no other entry of the task is called like it, then the text with
a collection before the name is accepted, and its findings are on the same lines, from the
same rules and of the same severities, in the same order. -/
theorem Linter.check_qualified (accepted : Linter.ofSettings settings = .ok linter)
    (parsed : Playbook.parse path content = .ok playbook)
    (read : Yaml.Value.read content = .ok (.sequence values))
    (read' : Yaml.Value.read content' = .ok (.sequence values'))
    (shapes : List.Forall₂ SameBlock values values') (ht : t ∈ playbook.tasks)
    (module : t.module? = some call) (short : shortModuleName call.name = call.name)
    (arguments : ∀ values, call.args ≠ .sequence values)
    (others : ∀ entry ∈ t.entries, entry.key ≠ call.name ∧ entry.key ≠ word ++ call.name)
    (collection : word ∈ coreCollections)
    (qualifies : Outline.Qualifies word.toList call.position content.toList content'.toList) :
    ∃ report report', linter.check path content = .ok report ∧
      linter.check path content' = .ok report' ∧
      report'.diagnostics.map (fun d => (d.position.line, d.rule, d.severity)) =
        report.diagnostics.map fun d => (d.position.line, d.rule, d.severity) := by
  have hword := isWord_of_collection collection
  obtain ⟨e, he, rfl, -⟩ := exists_call_of_mem_tasks parsed ht module
  have edit := callEdit_qualified collection module short arguments others
  obtain ⟨list, inner, item, hitem, made⟩ := exists_item_of_mem_tasks parsed ht
  have alone := alone_of_innerList inner (Outline.scan_alone _ he) hitem
  have renames := renames_of_made made edit.module edit.place alone edit.calls edit.renamed edit.others
  obtain ⟨blocks', parsed', matching⟩ :=
    parse_qualified parsed read read' shapes ht he edit collection qualifies
  obtain ⟨value, hread, build⟩ := exists_read_of_parse parsed
  obtain rfl := Except.ok.inj (hread.symm.trans read)
  obtain ⟨value', hread', build'⟩ := exists_read_of_parse parsed'
  obtain ⟨source, items, position, root, -⟩ := exists_blocksOf_of_build build
  obtain ⟨-, -, hplaybook⟩ := exists_blocksOf_of_build_sequence root build
  have encrypted : playbook.encrypted = false := by rw [hplaybook]
  have findings :=
    findings_qualified settings encrypted source collection he qualifies renames matching
  have sorted := sorted_qualified parsed parsed' hword he qualifies findings
  refine ⟨_, _, check_of_load accepted (load_eq_of_build hread build),
    check_of_load accepted (load_eq_of_build hread' build'), ?_⟩
  refine (List.forall₂_eq_eq_eq ▸ List.forall₂_map_left_iff.mpr
    (List.forall₂_map_right_iff.mpr (sorted.imp fun d d' h => ?_)) : _ = _).symm
  rw [h.position.line_eq, h.rule, h.severity]

/-- An inline call of `file` with the collection before the name: the text that it is called
with begins further to the right, and the findings stay. -/
theorem Linter.check_qualified_file :
    let content := "- hosts: all\n  tasks:\n    - file: path=a\n"
    let content' := "- hosts: all\n  tasks:\n    - ansible.builtin.file: path=a\n"
    ∃ (linter : Linter) (report report' : Report), Linter.ofSettings {} = .ok linter ∧
      linter.check "site.yml" content = .ok report ∧
      linter.check "site.yml" content' = .ok report' ∧
      report.diagnostics.map (·.position) = [⟨3, 13⟩] ∧
      report'.diagnostics.map (fun d => (d.position.line, d.rule, d.severity)) =
        report.diagnostics.map fun d => (d.position.line, d.rule, d.severity) := by
  intro content content'
  let linter : Linter := ⟨{}, .builtin, by decide⟩
  have accepted : Linter.ofSettings {} = .ok linter := rfl
  have reads : Conforming.ReadsAsPlay content ∧ Conforming.ReadsAsPlay content' := by
    decide +kernel
  obtain ⟨⟨value, read, mapping, hosts⟩, value', read', mapping', hosts'⟩ := reads
  -- What the theorem asks of the task is looked up in the playbook.
  let view (t : Task) : Option (String × Position × Bool) × List String :=
    (t.module?.map fun call => (call.name, call.position, call.args.scalar?.isSome),
      t.entries.map (·.key))
  have viewed : (Playbook.parse "site.yml" content).toOption.map (·.tasks.map view) =
      some [(some ("file", ⟨3, 7⟩, true), [])] := by decide +kernel
  cases parsed : Playbook.parse "site.yml" content with
  | error problem =>
    rw [parsed] at viewed
    cases viewed
  | ok playbook =>
    rw [parsed] at viewed
    obtain ⟨t, tasks, ht⟩ := List.map_eq_singleton_iff.mp (Option.some.inj viewed)
    obtain ⟨hmodule, hentries⟩ := Prod.mk.inj ht
    obtain ⟨call, module, hcall⟩ := Option.map_eq_some_iff.mp hmodule
    obtain ⟨name, hcall⟩ := Prod.mk.inj hcall
    obtain ⟨position, hargs⟩ := Prod.mk.inj hcall
    have qualifies : Outline.Qualifies "ansible.builtin.".toList call.position content.toList
        content'.toList := by
      rw [position]
      exact @Outline.Qualifies.intro _ _ _ _ ["- hosts: all".toList, "  tasks:".toList] []
        "    - ".toList "file: path=a".toList (by decide) (by decide) rfl (by decide)
        (by rintro _ ⟨⟩; decide) (by decide)
    obtain ⟨report, report', checked, checked', same⟩ :=
      Linter.check_qualified accepted parsed read read' (.cons ⟨mapping'.trans mapping.symm, hosts'.trans hosts.symm⟩ .nil)
        (tasks ▸ List.mem_singleton_self t) module (by rw [name]; decide)
        (fun values h => by simp [h, Value.scalar?] at hargs)
        (fun entry hentry => by simp [List.map_eq_nil_iff.mp hentries] at hentry)
        (by decide) qualifies
    have evaluated : (linter.check "site.yml" content).toOption.map
        (·.diagnostics.map Diagnostic.position) = some [⟨3, 13⟩] := by decide +kernel
    rw [checked] at evaluated
    exact ⟨linter, report, report', accepted, checked, checked', Option.some.inj evaluated, same⟩

end Reports

end PlaybookStyle
