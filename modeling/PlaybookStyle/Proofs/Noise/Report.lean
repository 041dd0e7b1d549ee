/-
Noise moves findings and changes nothing else.

The outline of a text with noise is the moved outline (`scan_noise`), so the
playbook is the moved playbook (`build_noise`), and what the rules find at its
parts moves along. Two rules also look at the document: the one on indentation
says the same about the same lines, and what the one on file names says stays at
the start of the file. That finding comes first among the sorted ones, however far
the others move (`compare_eq_lt_of_isFileLevel`); it is here that no scalar may
stand at the start of a text.

* `check_noise` — the report on a text with noise is the report on the text, with
  the lines moved.
-/

import PlaybookStyle.Proofs.Noise.Lines
import PlaybookStyle.Proofs.Playbook.Accepted
import PlaybookStyle.Proofs.Report.Moving
import PlaybookStyle.Proofs.Run

namespace PlaybookStyle

open Text Playbook

/-! ### The playbook -/

section Build

variable {f : Nat → Nat} {text noisy : List Char}

theorem Outline.scan_noise (noise : Noise f (splitLines text) (splitLines noisy)) :
    Outline.scan noisy =
      ⟨(Outline.scan text).root.moved f, (Outline.scan text).verbatim.map (LineRange.moved f)⟩ := by
  have hcursor : Cursor.ofText noisy = (Cursor.ofText text).moved f [] := by
    simp only [Cursor.ofText, Cursor.moved, LogicalLine.ofText, noise.ofLines, noise.zero,
      List.map_nil, List.nil_append]
  have hnode : NodeAt ((Cursor.ofText text).moved f []) _ _ :=
    (node_at (.ofText text)).moved noise.strictMono
  rw [← hcursor] at hnode
  rw [scan_eq_of_nodeAt hnode]
  rfl

/-- Where the lines of a text with noise come from, and that the blank lines before
them are as many as before. -/
def Noise.relocation (f : Nat → Nat) : Relocation := ⟨f, fun _ blank => blank⟩

theorem Noise.fits (noise : Noise f (splitLines text) (splitLines noisy)) :
    (Noise.relocation f).Fits (.ofText text) (.ofText noisy) := noise.blankLinesBefore

/-- The playbook in a text with noise. -/
def Playbook.withNoise (f : Nat → Nat) (noisy : List Char) (p : Playbook) : Playbook :=
  { p with
    blocks := p.blocks.map (Block.moved (Noise.relocation f))
    source := .ofText noisy
    verbatim := p.verbatim.map (LineRange.moved f) }

theorem build_noise {path : String} {value : Yaml.Value} {playbook : Playbook}
    (noise : Noise f (splitLines text) (splitLines noisy))
    (build : Playbook.build path text value = .ok playbook) :
    Playbook.build path noisy value = .ok (playbook.withNoise f noisy) ∧
      playbook.encrypted = false := by
  cases value with
  | sequence values =>
    simp only [Playbook.build, Outline.scan_noise noise] at build ⊢
    cases hroot : (Outline.scan text).root with
    | sequence position items =>
      rw [hroot] at build
      simp only [Outline.Node.moved, Outline.itemsMoved_eq_map, List.length_map] at build ⊢
      split at build
      · rename_i hlength
        have hmoved := blocksOf_moved noise.fits values items
        rw [if_pos hlength]
        cases hblocks : blocksOf (.ofText text) values items with
        | error e =>
          rw [hblocks] at build
          cases build
        | ok blocks =>
          rw [hblocks] at build hmoved
          cases build
          rw [show (Noise.relocation f).line = f from rfl] at hmoved
          simp only [hmoved, bind, Except.bind, pure, Except.pure]
          exact ⟨rfl, trivial⟩
      · cases build
    | _ =>
      rw [hroot] at build
      cases build
  | _ => cases build

end Build

/-! ### The finding about the file -/

theorem Position.eq_start_iff {p : Position} : p = .start ↔ p.line = 1 ∧ p.column = 1 := by
  cases p
  simp [Position.start]

/-- A finding about the file as a whole. -/
def Diagnostic.IsFileLevel (d : Diagnostic) : Prop :=
  d.rule = Rule.fileExtension.id ∧ d.position = .start

/-- A finding that stands behind the finding about the file among sorted ones. -/
structure Diagnostic.BehindFile (d : Diagnostic) : Prop where
  line : 0 < d.position.line
  column : 0 < d.position.column
  rule : d.position = .start → Ord.compare Rule.fileExtension.id d.rule = .lt

/-- A finding about the file stays where it is; any other moves. -/
inductive Diagnostic.Carried (f : Nat → Nat) (d : Diagnostic) : Diagnostic → Prop
  | file (h : d.IsFileLevel) : d.Carried f d
  | part {d' : Diagnostic} (h : ¬d.IsFileLevel) (moved : d.Moved f d') : d.Carried f d'

namespace Diagnostic

variable {f : Nat → Nat} {a a' b b' : Diagnostic}

theorem BehindFile.not_isFileLevel (h : a.BehindFile) : ¬a.IsFileLevel := by
  rintro ⟨hrule, hposition⟩
  have hlt := h.rule hposition
  have hself : Ord.compare a.rule a.rule = .eq := Std.ReflCmp.compare_self
  rw [← hrule, hself] at hlt
  cases hlt

/-- Moved, a finding still stands behind the finding about the file. -/
theorem BehindFile.moved (hf : StrictMono f) (hzero : f 0 = 0) (h : a.BehindFile)
    (ha : a.Moved f a') : a'.BehindFile := by
  have hline : 0 < f a.position.line := hzero ▸ hf h.line
  refine ⟨?_, ?_, fun hstart => ?_⟩
  · rwa [ha.position_eq]
  · rw [ha.position_eq]
    exact h.column
  · rw [ha.position_eq, Position.eq_start_iff] at hstart
    rw [ha.rule_eq]
    refine h.rule (Position.eq_start_iff.mpr ⟨?_, hstart.2⟩)
    -- A later line than the first could not have come to the first.
    by_contra hne
    have hlate : f 1 < f a.position.line := hf (Nat.lt_of_le_of_ne h.line (Ne.symm hne))
    have hone : 0 < f 1 := hzero ▸ hf Nat.one_pos
    have hmoved : f a.position.line = 1 := hstart.1
    omega

/-- **The finding about the file comes first.** -/
theorem compare_eq_lt_of_isFileLevel (ha : a.IsFileLevel) (hb : b.BehindFile)
    (file : a.file = b.file) : compare a b = .lt := by
  obtain ⟨hrule, hposition⟩ := ha
  have hfile : Path.compare b.file b.file = .eq := Std.ReflCmp.compare_self
  rw [compare, file, hfile, hposition, hrule]
  have hline := hb.line
  have hcolumn := hb.column
  change (Ord.compare 1 b.position.line).then ((Ord.compare 1 b.position.column).then
    (Ord.compare Rule.fileExtension.id b.rule)) = .lt
  by_cases h : 1 < b.position.line
  · rw [Nat.compare_eq_lt.mpr h]
    rfl
  · have hfirst : b.position.line = 1 := by omega
    rw [hfirst, Nat.compare_eq_eq.mpr rfl, Ordering.eq_then]
    by_cases h : 1 < b.position.column
    · rw [Nat.compare_eq_lt.mpr h]
      rfl
    · have hstart : b.position.column = 1 := by omega
      rw [hstart, Nat.compare_eq_eq.mpr rfl, Ordering.eq_then]
      exact hb.rule (Position.eq_start_iff.mpr ⟨hfirst, hstart⟩)

/-- Findings of one file keep their order, and stay the same or different. -/
theorem Carried.alike (hf : StrictMono f) (hzero : f 0 = 0) (ha : a.Carried f a')
    (hb : b.Carried f b') (file : a.file = b.file) (hplaceA : a.IsFileLevel ∨ a.BehindFile)
    (hplaceB : b.IsFileLevel ∨ b.BehindFile) :
    compare a' b' = compare a b ∧ same a' b' = same a b := by
  have hbehind : ∀ {d : Diagnostic}, d.IsFileLevel ∨ d.BehindFile → ¬d.IsFileLevel → d.BehindFile :=
    fun h hnot => h.resolve_left hnot
  cases ha with
  | file ha =>
    cases hb with
    | file hb => exact ⟨rfl, rfl⟩
    | part hb moved =>
      have hb := hbehind hplaceB hb
      have hbefore := compare_eq_lt_of_isFileLevel ha hb file
      have hafter := compare_eq_lt_of_isFileLevel ha (hb.moved hf hzero moved)
        (file.trans moved.file_eq.symm)
      exact ⟨hafter.trans hbefore.symm,
        (same_eq_false_of_lt hafter).trans (same_eq_false_of_lt hbefore).symm⟩
  | part ha moved =>
    have ha := hbehind hplaceA ha
    cases hb with
    | file hb =>
      have hbefore := compare_eq_lt_of_isFileLevel hb ha file.symm
      have hafter := compare_eq_lt_of_isFileLevel hb (ha.moved hf hzero moved)
        (file.symm.trans moved.file_eq.symm)
      have hdiffer : ∀ {d d' : Diagnostic}, compare d d' = .lt → same d' d = false := by
        intro d d' hlt
        refine Bool.eq_false_iff.mpr fun hsame => ?_
        have heq := Std.OrientedCmp.eq_symm (compare_eq_of_same hsame)
        rw [hlt] at heq
        cases heq
      exact ⟨(Std.OrientedCmp.gt_of_lt hafter).trans (Std.OrientedCmp.gt_of_lt hbefore).symm,
        (hdiffer hafter).trans (hdiffer hbefore).symm⟩
    | part hb moved' =>
      exact ⟨moved.compare_eq hf moved', moved.same_eq hf.injective moved'⟩

end Diagnostic

/-! ### The findings about the document -/

section Document

variable {f : Nat → Nat} {p : Playbook}

/-- A line is verbatim where it was verbatim before. -/
theorem isVerbatim_withNoise (hf : StrictMono f) (noisy : List Char) {n : Nat} (hn : 0 < n) :
    (p.withNoise f noisy).isVerbatim (f n) = p.isVerbatim n := by
  simp only [Playbook.isVerbatim, Playbook.withNoise, List.any_map, Function.comp_def,
    LineRange.contains_moved hf _ hn]

/-- **What is found about the document.** The rule on indentation says the same of
the same lines, and what is found about the file stays. -/
theorem findingsAt_document {text noisy : List Char} (settings : Settings) (path : String)
    (noise : Noise f (splitLines text) (splitLines noisy)) (source : p.source = .ofText text)
    (encrypted : p.encrypted = false) :
    List.Forall₂ (Diagnostic.Carried f)
      (Registry.builtin.findingsAt settings path (.alone (.document p)))
      (Registry.builtin.findingsAt settings path (.alone (.document (p.withNoise f noisy)))) := by
  simp only [Registry.findingsAt, Visit.alone, Part.kind, Rule.rulesFor_document]
  refine forall₂_flatMap fun rule hrule => Rule.findings_forall₂ ?_
  simp only [List.mem_cons, List.not_mem_nil, or_false] at hrule
  rcases hrule with rfl | rfl | rfl
  · have hfile : Rule.indentation.id ≠ Rule.fileExtension.id := by decide
    have hblock : Rule.indentation.id ≠ Rule.blockSpacing.id := by decide
    have hremarks : Rule.indentRemarks (p.withNoise f noisy).isVerbatim
        (SourceLines.ofText noisy).numbered =
          (Rule.indentRemarks p.isVerbatim (SourceLines.ofText text).numbered).map
            (Remark.moved f) :=
      noise.indentRemarks fun n hn => isVerbatim_withNoise noise.strictMono noisy hn
    have hencrypted : (p.withNoise f noisy).encrypted = false := encrypted
    rw [Rule.indentation_remarks encrypted, Rule.indentation_remarks hencrypted, source,
      show (p.withNoise f noisy).source = .ofText noisy from rfl, hremarks,
      List.forall₂_map_right_iff, List.forall₂_same]
    exact fun remark _ => .part (fun h => hfile h.1) (.place hblock)
  · simp only [Rule.fileExtension, Playbook.withNoise, encrypted]
    rw [if_neg Bool.false_ne_true, List.forall₂_same]
    intro remark hremark
    exact .file ⟨rfl, Rule.extensionRemark?_position (Option.mem_toList.mp hremark)⟩
  · simp only [Rule.vaultFileExtension, Playbook.withNoise, encrypted]
    exact .nil

end Document

/-! ### Where findings stand -/

theorem LiesIn.line_pos {source : List Char} {place : Position} (h : LiesIn source place) :
    0 < place.line := by
  obtain ⟨line, hline, -⟩ := h
  refine Nat.pos_of_ne_zero fun hzero => ?_
  rw [hzero] at hline
  cases hline

theorem LiesIn.column_pos {source : List Char} {place : Position} (h : LiesIn source place) :
    0 < place.column := h.choose_spec.2.1

section Places

variable {settings : Settings} {path content : String} {p : Playbook}

/-- At a block without another before it, the rules that have something to say are
named behind the rule on file names. -/
theorem compare_fileExtension_of_block {block : Block} {d : Diagnostic}
    (h : d ∈ Registry.builtin.findingsAt settings path ⟨block.part, none⟩) :
    Ord.compare Rule.fileExtension.id d.rule = .lt := by
  obtain ⟨rule, hrule, remark, hremark, rfl⟩ := Registry.exists_remark_of_mem_findingsAt h
  have hsilent : rule ≠ Rule.blockSpacing := by
    rintro rfl
    cases hremark
  change Ord.compare Rule.fileExtension.id rule.id = .lt
  cases block with
  | play play =>
    rw [show Registry.builtin.rulesFor (Block.play play).part.kind =
      [Rule.sudoBecome, Rule.hostBlockOrder, Rule.blockSpacing] from rfl] at hrule
    simp only [List.mem_cons, List.not_mem_nil, or_false] at hrule
    rcases hrule with rfl | rfl | rfl
    · decide
    · decide
    · exact absurd rfl hsilent
  | inclusion i =>
    rw [show Registry.builtin.rulesFor (Block.inclusion i).part.kind =
      [Rule.keySpacing, Rule.sudoBecome, Rule.includeQuoting, Rule.includeSpacing,
        Rule.blockSpacing] from rfl] at hrule
    simp only [List.mem_cons, List.not_mem_nil, or_false] at hrule
    rcases hrule with rfl | rfl | rfl | rfl | rfl
    · decide
    · decide
    · decide
    · decide
    · exact absurd rfl hsilent

/-- What is found at a part inside the document stands behind what is found about
the file: only the first block begins where the text does. -/
theorem behindFile_of_mem_findingsAt {value : Yaml.Value} {visit : Visit} {d : Diagnostic}
    (read : Yaml.Value.read content = .ok value)
    (build : Playbook.build path content.toList value = .ok p)
    (hvisit : visit ∈ visitsOfBlocks none p.blocks)
    (h : d ∈ Registry.builtin.findingsAt settings path visit) : d.BehindFile := by
  have hload := load_eq_of_build read build
  have hvisits : PartsAt (LiesIn content.toList) p.visits :=
    visits_everywhere hload (liesIn_start (ne_nil_of_load hload))
      (fun _ _ _ h => liesIn_of_sourceLines h) (Outline.scan_placed _).everywhere
  have hlies := Registry.findingsAt_inside (hvisits visit (List.mem_cons_of_mem _ hvisit)) h
  refine ⟨hlies.line_pos, hlies.column_pos, fun hstart => ?_⟩
  obtain ⟨part, previous?⟩ := visit
  rcases visitsOfBlocks_first build _ hvisit with hpart | ⟨rfl, block, rfl⟩
  · exact absurd hstart (Registry.findingsAt_inside hpart h)
  · exact compare_fileExtension_of_block h

/-- What is found about a document is about the file or stands behind that. -/
theorem place_of_mem_findingsAt_document {d : Diagnostic} (encrypted : p.encrypted = false)
    (h : d ∈ Registry.builtin.findingsAt settings path (.alone (.document p))) :
    d.IsFileLevel ∨ d.BehindFile := by
  obtain ⟨rule, hrule, remark, hremark, rfl⟩ := Registry.exists_remark_of_mem_findingsAt h
  simp only [Visit.alone, Part.kind, Rule.rulesFor_document, List.mem_cons, List.not_mem_nil,
    or_false] at hrule
  rcases hrule with rfl | rfl | rfl
  · rw [Visit.alone, Rule.indentation_remarks encrypted] at hremark
    obtain ⟨⟨number, line⟩, hline, hremark⟩ := List.mem_filterMap.mp hremark
    obtain ⟨i, rfl, -⟩ := Rule.line_of_mem_numbered hline
    dsimp only at hremark
    split at hremark
    · cases hremark
    · obtain ⟨before, after, -, hposition⟩ := Rule.indentRemark?_position hremark
      have hbehind : Ord.compare Rule.fileExtension.id Rule.indentation.id = .lt := by decide
      have hplace : (Rule.indentation.finding settings path remark).position =
          ⟨i + 1, byteLength before + 1⟩ := hposition
      exact .inr ⟨by rw [hplace]; exact Nat.succ_pos i, by rw [hplace]; exact Nat.succ_pos _,
        fun _ => hbehind⟩
  · simp only [Rule.fileExtension, Visit.alone, encrypted] at hremark
    exact .inl ⟨rfl, Rule.extensionRemark?_position (Option.mem_toList.mp hremark)⟩
  · simp only [Rule.vaultFileExtension, Visit.alone, encrypted] at hremark
    cases hremark

end Places

/-! ### The report -/

section Check

variable {f : Nat → Nat} {settings : Settings} {path content noisy : String} {p : Playbook}

/-- What the rules find in a text with noise is what they find in the text, moved. -/
theorem findings_noise {value : Yaml.Value}
    (noise : Noise f (splitLines content.toList) (splitLines noisy.toList))
    (read : Yaml.Value.read content = .ok value)
    (build : Playbook.build path content.toList value = .ok p) (encrypted : p.encrypted = false) :
    List.Forall₂ (Diagnostic.Carried f) (Registry.builtin.findings settings p)
      (Registry.builtin.findings settings (p.withNoise f noisy.toList)) := by
  have hpath : p.path = path := path_of_build build
  have hmoved : visitsOfBlocks none (p.withNoise f noisy.toList).blocks =
      (visitsOfBlocks none p.blocks).map (Visit.moved (Noise.relocation f)) :=
    visitsOfBlocks_moved noise.strictMono.injective none p.blocks
  unfold Registry.findings Playbook.visits
  rw [hmoved, List.flatMap_cons, List.flatMap_cons, List.flatMap_map]
  refine List.rel_append ?_ (forall₂_flatMap fun visit hvisit => ?_)
  · exact findingsAt_document settings p.path noise (exists_blocksOf_of_build build).1 encrypted
  · have hinner := visitsOfBlocks_inner p.blocks (by simp) visit hvisit
    have hfound := Registry.findingsAt_moved (r := Noise.relocation f) noise.strictMono settings
      p.path hinner fun _ _ => rfl
    have hplace : ∀ d ∈ Registry.builtin.findingsAt settings p.path visit, ¬d.IsFileLevel :=
      fun d hd => (behindFile_of_mem_findingsAt read build hvisit (hpath ▸ hd)).not_isFileLevel
    exact ((List.forall₂_and_left _ _).mpr ⟨hplace, hfound⟩).imp fun d d' h => .part h.1 h.2

/-- A finding is about the file or stands behind that. -/
theorem place_of_mem_findings {value : Yaml.Value} {d : Diagnostic}
    (read : Yaml.Value.read content = .ok value)
    (build : Playbook.build path content.toList value = .ok p) (encrypted : p.encrypted = false)
    (h : d ∈ Registry.builtin.findings settings p) : d.IsFileLevel ∨ d.BehindFile := by
  rw [Registry.findings, path_of_build build] at h
  obtain ⟨visit, hvisit, hd⟩ := List.mem_flatMap.mp h
  rcases List.mem_cons.mp hvisit with rfl | hvisit
  · exact place_of_mem_findingsAt_document encrypted hd
  · exact .inr (behindFile_of_mem_findingsAt read build hvisit hd)

theorem playCount_withNoise : (p.withNoise f noisy.toList).playCount = p.playCount := by
  rw [Playbook.playCount, Playbook.plays, show (p.withNoise f noisy.toList).blocks =
    p.blocks.map (Block.moved (Noise.relocation f)) from rfl, plays_moved, List.length_map]
  rfl

theorem taskCount_withNoise : (p.withNoise f noisy.toList).taskCount = p.taskCount := by
  rw [Playbook.taskCount, Playbook.plays, show (p.withNoise f noisy.toList).blocks =
    p.blocks.map (Block.moved (Noise.relocation f)) from rfl, plays_moved, List.foldl_map]
  simp only [Play.taskCount_moved]
  rfl

/-- **Noise moves findings and changes nothing else.** If a text is accepted as a
playbook and one with noise in it has the same value, the report on the second is
the report on the first with the lines moved: the same findings in the same order,
those about the file at the start, and the same counts. -/
theorem Linter.check_noise {linter : Linter} {playbook : Playbook}
    (accepted : Linter.ofSettings settings = .ok linter)
    (parsed : Playbook.parse path content = .ok playbook)
    (noise : Noise f (splitLines content.toList) (splitLines noisy.toList))
    (value : Yaml.Value.read noisy = Yaml.Value.read content) :
    ∃ report report' : Report,
      linter.check path content = .ok report ∧ linter.check path noisy = .ok report' ∧
        List.Forall₂ (Diagnostic.Carried f) report.diagnostics report'.diagnostics ∧
        report'.files = report.files ∧ report'.failed = report.failed ∧
        report'.plays = report.plays ∧ report'.tasks = report.tasks := by
  obtain ⟨read, hread, build⟩ := exists_read_of_parse parsed
  obtain ⟨build', encrypted⟩ := build_noise noise build
  refine ⟨_, _, Linter.check_of_load accepted (load_eq_of_build hread build),
    Linter.check_of_load accepted (load_eq_of_build (value.trans hread) build'), ?_, rfl, rfl,
    playCount_withNoise, taskCount_withNoise⟩
  have hfile : ∀ a ∈ Registry.builtin.findings settings playbook,
      ∀ b ∈ Registry.builtin.findings settings playbook, a.file = b.file := fun a ha b hb =>
    (Registry.file_of_mem_findings ha).trans (Registry.file_of_mem_findings hb).symm
  have halike : ∀ a ∈ Registry.builtin.findings settings playbook,
      ∀ b ∈ Registry.builtin.findings settings playbook, ∀ a' b',
        a.Carried f a' → b.Carried f b' →
          Diagnostic.compare a' b' = Diagnostic.compare a b ∧
            Diagnostic.same a' b' = Diagnostic.same a b := fun a ha b hb a' b' hca hcb =>
    hca.alike noise.strictMono noise.zero hcb (hfile a ha b hb)
      (place_of_mem_findings hread build encrypted ha)
      (place_of_mem_findings hread build encrypted hb)
  exact Report.sortedDiagnostics_forall₂ (findings_noise noise hread build encrypted)
    (fun a ha b hb a' b' hca hcb => (halike a ha b hb a' b' hca hcb).1)
    (fun a ha b hb a' b' hca hcb => (halike a ha b hb a' b' hca hcb).2)

/-- A play with a blank before a colon, and the same with a comment above it,
blanks at the end of a line and every line feed behind a carriage return: the
finding moves by a line. -/
theorem Linter.check_noise_hosts :
    ∃ (linter : Linter) (playbook : Playbook) (f : Nat → Nat) (report report' : Report),
      Linter.ofSettings {} = .ok linter ∧
      Playbook.parse "site.yml" "- hosts : all\n  tasks: []\n" = .ok playbook ∧
      Noise f (splitLines "- hosts : all\n  tasks: []\n".toList)
        (splitLines "# A play\r\n- hosts : all  \r\n  tasks: []\r\n".toList) ∧
      Yaml.Value.read "# A play\r\n- hosts : all  \r\n  tasks: []\r\n" =
        Yaml.Value.read "- hosts : all\n  tasks: []\n" ∧
      linter.check "site.yml" "- hosts : all\n  tasks: []\n" = .ok report ∧
      linter.check "site.yml" "# A play\r\n- hosts : all  \r\n  tasks: []\r\n" = .ok report' ∧
      report.diagnostics.map Diagnostic.position = [⟨1, 3⟩] ∧
      List.Forall₂ (Diagnostic.Carried f) report.diagnostics report'.diagnostics := by
  let linter : Linter := ⟨{}, .builtin, by decide⟩
  have accepted : Linter.ofSettings {} = .ok linter := rfl
  have parses : (Playbook.parse "site.yml" "- hosts : all\n  tasks: []\n").toOption.isSome := by
    decide +kernel
  have noise : Noise (id ∘ id ∘ fun n => if n ≤ 0 then n else n + 1)
      (splitLines "- hosts : all\n  tasks: []\n".toList)
      (splitLines (Noise.carriages "# A play\n- hosts : all  \n  tasks: []\n".toList)) := by
    refine .trans (.trans (@Noise.comment [] _ [] " A play".toList rfl) ?_) (.ofCarriages _)
    refine @Noise.line ["# A play".toList] ["  tasks: []".toList] "- hosts : all".toList _ ?_
    refine @LineNoise.blanks "- hosts : all".toList "  ".toList [] rfl rfl fun leading more h _ _ => ?_
    have hreturn : '\r' ∉ "- hosts : all".toList := by decide
    exact absurd (h ▸ by simp) hreturn
  let play : Yaml.Value :=
    .sequence [.mapping [(.string "hosts", .string "all"), (.string "tasks", .sequence [])]]
  have read : Yaml.Value.read "- hosts : all\n  tasks: []\n" = .ok play := by
    with_unfolding_all rfl
  have read' : Yaml.Value.read "# A play\r\n- hosts : all  \r\n  tasks: []\r\n" = .ok play := by
    with_unfolding_all rfl
  have value := read'.trans read.symm
  have positions : (linter.check "site.yml" "- hosts : all\n  tasks: []\n").toOption.map
      (·.diagnostics.map Diagnostic.position) = some [⟨1, 3⟩] := by
    decide +kernel
  cases parsed : Playbook.parse "site.yml" "- hosts : all\n  tasks: []\n" with
  | error problem =>
    rw [parsed] at parses
    cases parses
  | ok playbook =>
    obtain ⟨report, report', checked, checked', carried, -⟩ :=
      Linter.check_noise accepted parsed noise value
    rw [checked] at positions
    exact ⟨linter, playbook, _, report, report', accepted, rfl, noise, value, checked, checked',
      Option.some.inj positions, carried⟩

end Check

end PlaybookStyle
