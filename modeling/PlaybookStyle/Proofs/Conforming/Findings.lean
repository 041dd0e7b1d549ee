/-
What the rules find in a conforming playbook.

At every visit of the walk all rules are silent, but for one: at the value of a
parameter without quotes, `quoteStyle` has a remark. So the findings about the
playbook are those about its bare values, in source order (`findings_playbook`).
-/

import PlaybookStyle.Linter
import PlaybookStyle.Proofs.Conforming.Build
import PlaybookStyle.Proofs.Rule.Silence

namespace PlaybookStyle.Conforming

open Text Outline Playbook

/-! ### Findings at a visit -/

/-- The built-in findings at a visit when nothing is set. -/
def findingsAt (path : String) (visit : Visit) : List Diagnostic :=
  Registry.builtin.findingsAt {} path visit

/-- The conventions when nothing is set. -/
def conventions : Conventions := Settings.conventions {}

theorem findings_default (rule : Rule) (path : String) (visit : Visit) :
    rule.findings {} path visit = (rule.remarks conventions visit).map (rule.finding {} path) := by
  simp [Rule.findings, Settings.runs, Settings.reports, Severity.reaches, Severity.rank,
    conventions]

/-- No rule that looks at a visit has a remark. -/
def Silent (visit : Visit) : Prop :=
  ∀ rule ∈ Registry.builtin.rulesFor visit.part.kind, rule.remarks conventions visit = []

theorem Silent.findingsAt_eq {visit : Visit} (h : Silent visit) (path : String) :
    findingsAt path visit = [] := by
  rw [findingsAt, Registry.findingsAt, List.flatMap_eq_nil_iff]
  intro rule hrule
  rw [findings_default, h rule hrule, List.map_nil]

/-! ### Entries and modules -/

theorem colonRemarks_spaced (key : String) (position : Position) :
    Rule.colonRemarks key position spaced = [] :=
  Rule.colonRemarks_eq_nil_iff.mpr ⟨rfl, rfl, .inr rfl⟩

theorem colonRemarks_unspaced (key : String) (position : Position) :
    Rule.colonRemarks key position unspaced = [] :=
  Rule.colonRemarks_eq_nil_iff.mpr ⟨rfl, rfl, .inl rfl⟩

theorem silent_entry {e : Playbook.Entry} (hspacing : e.spacing = spaced)
    (hassigns : e.assigns = false) : Silent (.alone (.entry e)) := by
  have hrules : Registry.builtin.rulesFor (Visit.alone (.entry e)).part.kind =
      [Rule.keySpacing, Rule.variableNaming] := rfl
  rw [Silent, hrules, List.forall_mem_cons, List.forall_mem_singleton]
  constructor
  · show Rule.colonRemarks e.key e.position e.spacing = []
    rw [hspacing, colonRemarks_spaced]
  · show (if e.assigns then _ else _) = ([] : List Remark)
    rw [hassigns, if_neg Bool.false_ne_true]

theorem Step.silent_call (number : Nat) (s : Step) : Silent (.alone (.module (s.call number))) := by
  have hrules : Registry.builtin.rulesFor (Visit.alone (.module (s.call number))).part.kind =
      [Rule.keySpacing, Rule.mapSyntax] := rfl
  rw [Silent, hrules, List.forall_mem_cons, List.forall_mem_singleton]
  constructor
  · exact colonRemarks_unspaced s.module.name ⟨number + 1, 7⟩
  · rfl

/-! ### Tasks and plays -/

theorem map_key_partsFrom (number : Nat) (m : Module) (ps : List Parameter) :
    (partsFrom number m ps).map EntryOf.key = ps.map Parameter.name := by
  induction ps generalizing number with
  | nil => rfl
  | cons p rest ih => rw [partsFrom, List.map_cons, ih, List.map_cons, Parameter.part]

/-- The parameters are in the order of their names. -/
theorem Step.parameterRemarks_call (number : Nat) (s : Step) :
    Rule.parameterRemarks (s.call number) = [] := by
  have hnames := map_key_partsFrom (number + 2) s.module s.parameters
  have hsorted : Rule.unsorted ((partsFrom (number + 2) s.module s.parameters).map
      fun e => (e.key, e.position)) = [] := by
    apply Rule.unsorted_eq_nil_iff.mpr
    apply List.Pairwise.isChain
    rw [List.pairwise_map]
    have hpairwise := s.sorted
    rw [← hnames, List.pairwise_map] at hpairwise
    exact hpairwise.imp fun hlt => String.lt_asymm hlt
  have hparams : (s.call number).params?.getD [] = partsFrom (number + 2) s.module s.parameters :=
    rfl
  rw [Rule.parameterRemarks, hparams, hsorted, List.map_nil]

/-- A task is silent if it is the first or has a blank line above. -/
theorem Step.silent_task {source : SourceLines} {number : Nat} (s : Step) {previous? : Option Part}
    (hblank : previous?.isSome = true → 0 < source.blankLinesBefore number) :
    Silent ⟨.task (s.task source number), previous?⟩ := by
  have hrules : Registry.builtin.rulesFor
      (Visit.part ⟨.task (s.task source number), previous?⟩).kind =
        [Rule.sudoBecome, Rule.taskFieldOrder, Rule.blockSpacing] := rfl
  rw [Silent, hrules, List.forall_mem_cons, List.forall_mem_cons, List.forall_mem_singleton]
  refine ⟨rfl, ?_, ?_⟩
  · have hremarks := s.parameterRemarks_call number
    show Rule.taskOrderRemarks (s.task source number) ++
      [s.call number].flatMap Rule.parameterRemarks ++
        Rule.taskOptionRemarks (s.task source number) = []
    rw [List.flatMap_singleton, hremarks]
    rfl
  · cases previous? with
    | none => rfl
    | some previous =>
      obtain ⟨n, hn⟩ := Nat.exists_eq_add_one_of_ne_zero (Nat.ne_of_gt (hblank rfl))
      have hseparated : Rule.separated? (.task (s.task source number)) previous =
          some ("task", n + 1, ⟨number, 5⟩) := by
        rw [← hn]
        rfl
      show (Rule.blockRemark? (.task (s.task source number)) previous).toList = []
      rw [Rule.blockRemark?, hseparated]
      rfl

theorem silent_play (source : SourceLines) (steps : List Step) :
    Silent (.alone (.play (play source steps))) := by
  have hrules : Registry.builtin.rulesFor (Visit.alone (.play (play source steps))).part.kind =
      [Rule.sudoBecome, Rule.hostBlockOrder, Rule.blockSpacing] := rfl
  rw [Silent, hrules, List.forall_mem_cons, List.forall_mem_cons, List.forall_mem_singleton]
  exact ⟨rfl, rfl, rfl⟩

/-! ### The document -/

theorem ofText_text (steps : List Step) :
    SourceLines.ofText (text steps).toList = ⟨sourceLines steps⟩ := by
  have htrim : ∀ line ∈ sourceLines steps, trimEndOf (· == '\r') line = line := by
    intro line hline
    rcases mem_sourceLines hline with rfl | ⟨b, hb, rfl⟩
    · rfl
    · exact hb.solid.trimEndOf_source
  rw [SourceLines.ofText, splitLines_text, List.map_congr_left htrim, List.map_id']

/-- Blank lines and lines in steps of two spaces are indented well. -/
theorem indentRemark?_of_mem {steps : List Step} {line : List Char}
    (h : line ∈ sourceLines steps) (number : Nat) : Rule.indentRemark? number line = none := by
  rcases mem_sourceLines h with rfl | ⟨b, hb, rfl⟩
  · rfl
  · exact (Rule.indentRemark?_eq_none_iff hb.solid.starts).mpr hb.even

theorem silent_document (stem : String) (steps : List Step) :
    Silent (.alone (.document (playbook (stem ++ ".yml") steps))) := by
  have hrules : Registry.builtin.rulesFor
      (Visit.alone (.document (playbook (stem ++ ".yml") steps))).part.kind =
        [Rule.indentation, Rule.fileExtension, Rule.vaultFileExtension] := rfl
  rw [Silent, hrules, List.forall_mem_cons, List.forall_mem_cons, List.forall_mem_singleton]
  refine ⟨?_, ?_, rfl⟩
  · show (playbook (stem ++ ".yml") steps).source.numbered.filterMap _ = []
    rw [List.filterMap_eq_nil_iff]
    rintro ⟨number, line⟩ hnumbered
    have hline : line ∈ (SourceLines.ofText (text steps).toList).lines :=
      (List.of_mem_zip hnumbered).2
    rw [ofText_text] at hline
    exact indentRemark?_of_mem hline number
  · have hextension := Rule.extensionRemark?_append_yml stem .start
    show (Rule.extensionRemark? .ymlOnly (stem ++ ".yml") .start).toList = []
    rw [hextension]
    rfl

/-! ### Scalars -/

/-- A scalar of a role in which only its quotes matter. -/
structure Ordinary (s : Playbook.Scalar) : Prop where
  context : s.context = .hostTarget ∨ s.context = .name ∨ s.context = .moduleParam
  kind : s.kind = .string
  text : '\x7b' ∉ s.text.toList

/-- Of an ordinary scalar only the quotes are remarked. -/
theorem Ordinary.findingsAt_eq {s : Playbook.Scalar} (h : Ordinary s) (path : String) :
    findingsAt path (.alone (.scalar s)) =
      (Rule.quoteStyle.remarks conventions (.alone (.scalar s))).map
        (Rule.quoteStyle.finding {} path) := by
  have hkind : (Visit.alone (.scalar s)).part.kind = .scalar := by
    show (if s.context = .condition then PartKind.condition else .scalar) = .scalar
    rcases h.context with hc | hc | hc
    all_goals rw [hc]; rfl
  have hrules : Registry.builtin.rulesFor .scalar =
      [Rule.quoteStyle, Rule.booleanLiteral, Rule.variableNaming, Rule.jinjaSpacing,
        Rule.fileExtension, Rule.vaultFileExtension] := rfl
  have hboolean : Rule.booleanLiteral.remarks conventions (.alone (.scalar s)) = [] := by
    show (if s.kind = .boolean then _ else _) = ([] : List Remark)
    rw [h.kind]
    rfl
  have hvariable : Rule.variableNaming.remarks conventions (.alone (.scalar s)) = [] := by
    show (if s.context = .registered then _ else _) = ([] : List Remark)
    rcases h.context with hc | hc | hc
    all_goals rw [hc]; rfl
  have hjinja : Rule.jinjaSpacing.remarks conventions (.alone (.scalar s)) = [] := by
    show ((Rule.expressions s.text.toList).filter _).map _ = []
    rw [Rule.expressions_eq_nil h.text, List.filter_nil, List.map_nil]
  have hfile : Rule.namedFile? s = none := by
    unfold Rule.namedFile?
    rcases h.context with hc | hc | hc
    all_goals rw [hc]; rfl
  have hextension : Rule.fileExtension.remarks conventions (.alone (.scalar s)) = [] := by
    simp only [Rule.fileExtension, Visit.alone, hfile]
  have hvault : Rule.vaultFileExtension.remarks conventions (.alone (.scalar s)) = [] := by
    simp only [Rule.vaultFileExtension, Visit.alone, hfile]
  rw [findingsAt, Registry.findingsAt, hkind, hrules]
  simp only [List.flatMap_cons, List.flatMap_nil, findings_default, hboolean, hvariable, hjinja,
    hextension, hvault, List.map_nil, List.append_nil]

/-! ### Values -/

/-- A bare value is the string that YAML takes it for. -/
def Parameter.IsString (p : Parameter) : Prop := p.bare = true → plainKind p.value = .string

theorem Parameter.exists_value (p : Parameter) : ∃ rest, p.value.toList = 'v' :: rest := by
  have hform := p.value_form
  cases hvalue : p.value.toList with
  | nil =>
    rw [hvalue] at hform
    cases hform
  | cons c rest =>
    rw [hvalue] at hform
    obtain ⟨hc, -⟩ := Bool.and_eq_true_iff.mp hform
    rw [beq_iff_eq.mp hc]
    exact ⟨rest, rfl⟩

/-- No value spells a boolean. -/
theorem Parameter.isBooleanText_value (p : Parameter) :
    booleanTokens.contains p.value = false ∧ isBooleanText p.value = false := by
  obtain ⟨rest, hvalue⟩ := p.exists_value
  have hne : ∀ token ∈ "1" :: "0" :: booleanTokens, p.value ≠ token := by
    have hhead : ∀ token ∈ "1" :: "0" :: booleanTokens, token.toList.head? ≠ some 'v' := by decide
    rintro token htoken rfl
    exact hhead p.value htoken (by rw [hvalue]; rfl)
  simp only [List.forall_mem_cons] at hne
  obtain ⟨hone, hzero, htokens⟩ := hne
  have hcontains : booleanTokens.contains p.value = false := by
    simpa using fun hmem => htokens p.value hmem rfl
  refine ⟨hcontains, ?_⟩
  rw [isBooleanText, hcontains, beq_eq_false_iff_ne.mpr hone, beq_eq_false_iff_ne.mpr hzero]
  rfl

theorem Parameter.isInteger_value (p : Parameter) : isInteger p.value = false := by
  obtain ⟨rest, hvalue⟩ := p.exists_value
  unfold isInteger
  rw [hvalue]
  simp

/-- What the module and the key of a parameter leave to its text. -/
theorem kindOf_parameter (style : QuoteStyle) (text key : String) (m : Module)
    (hstyle : style = .unquoted ∨ style = .double) :
    kindOf style text (some key) .moduleParam (some m.name) =
      textKind style text (booleanKeys.contains key) := by
  have hparameter : parameterKind? (some m.name) (some key) text = none := by
    cases m <;> rfl
  unfold kindOf
  rcases hstyle with rfl | rfl
  all_goals
    dsimp only [Context.fixedKind?]
    rw [hparameter]
    rfl

theorem Parameter.kind_scalar {p : Parameter} (h : p.IsString) (number : Nat) (m : Module) :
    (p.scalar number m).kind = .string := by
  obtain ⟨htokens, hboolean⟩ := p.isBooleanText_value
  have hkind : (p.scalar number m).kind = kindOf p.found.style (String.ofList p.found.text)
      (some p.name) .moduleParam (some m.name) := rfl
  rw [hkind]
  cases hbare : p.bare with
  | true =>
    have hfound : p.found = ⟨p.value.toList, p.value.toList, .unquoted⟩ := by
      rw [Parameter.found, if_pos hbare]
    rw [hfound, String.ofList_toList, kindOf_parameter _ _ _ _ (.inl rfl), textKind, htokens,
      hboolean, Bool.and_false, Bool.or_false, if_neg Bool.false_ne_true]
    exact h hbare
  | false =>
    have hfound : p.found = quoted p.value := by
      rw [Parameter.found, hbare, if_neg Bool.false_ne_true]
    rw [hfound, quoted, String.ofList_toList, kindOf_parameter _ _ _ _ (.inr rfl), textKind,
      hboolean, Bool.and_false, if_neg Bool.false_ne_true, p.isInteger_value,
      if_neg Bool.false_ne_true]

theorem Parameter.text_scalar (p : Parameter) (number : Nat) (m : Module) :
    (p.scalar number m).text = p.value := by
  have htext : (p.scalar number m).text = String.ofList p.found.text := rfl
  rw [htext, Parameter.found]
  cases p.bare <;> exact String.ofList_toList

theorem Parameter.ordinary_scalar {p : Parameter} (h : p.IsString) (number : Nat) (m : Module) :
    Ordinary (p.scalar number m) where
  context := .inr (.inr rfl)
  kind := p.kind_scalar h number m
  text := by
    rw [p.text_scalar]
    exact fun hmem => (p.isOrdinary_value _ hmem).2.2.2 rfl

/-! ### Findings about values -/

/-- The finding about a value that should stand in quotes. -/
def PlacedValue.finding (path : String) (v : PlacedValue) : Diagnostic where
  file := path
  position := v.position
  rule := "quote-style"
  severity := .error
  category := .quoting
  message := s!"String value '{v.parameter.name}' should be double-quoted"
  suggestion? := some (inQuotes v.parameter.value)

/-- The findings about those of some values that stand without quotes. -/
def findingsOf (path : String) (values : List PlacedValue) : List Diagnostic :=
  (values.filter (·.parameter.bare)).map (PlacedValue.finding path)

theorem findingsOf_append (path : String) (a b : List PlacedValue) :
    findingsOf path (a ++ b) = findingsOf path a ++ findingsOf path b := by
  rw [findingsOf, List.filter_append, List.map_append, ← findingsOf, ← findingsOf]

theorem Parameter.quoteRemark?_scalar {p : Parameter} (h : p.IsString) (number : Nat)
    (m : Module) :
    Rule.quoteRemark? (p.scalar number m) =
      if p.bare then
        some ⟨⟨number, byteLength p.name.toList + 11⟩,
          s!"String value '{p.name}' should be double-quoted", some (inQuotes p.value)⟩
      else none := by
  have hkind := p.kind_scalar h number m
  have hstyle : (p.scalar number m).style = p.found.style := rfl
  rw [Parameter.found] at hstyle
  cases hbare : p.bare with
  | true =>
    rw [if_pos hbare] at hstyle
    have hcolumn : 8 + byteLength p.name.toList + 3 = byteLength p.name.toList + 11 := by omega
    have hposition : (p.scalar number m).position = ⟨number, byteLength p.name.toList + 11⟩ := by
      rw [← hcolumn]
      rfl
    have hname : Rule.nameOf (p.scalar number m) = s!"'{p.name}'" := rfl
    have hmessage : s!"String value {Rule.nameOf (p.scalar number m)} should be double-quoted" =
        s!"String value '{p.name}' should be double-quoted" := by
      rw [hname]
      apply String.toList_injective
      simp [toString]
    rw [Rule.quoteRemark?, hkind, hstyle, if_pos rfl]
    dsimp only
    rw [hposition, hmessage, p.text_scalar]
    rfl
  | false =>
    rw [if_neg (by simp [hbare])] at hstyle
    rw [Rule.quoteRemark?, hkind, hstyle, if_neg Bool.false_ne_true]
    rfl

/-- At a parameter there is one finding if its value is bare, and none if not. -/
theorem Parameter.findings_scalar {p : Parameter} (h : p.IsString) (path : String) (number : Nat)
    (m : Module) :
    findingsAt path (.alone (.scalar (p.scalar number m))) =
      findingsOf path [⟨⟨number, byteLength p.name.toList + 11⟩, p⟩] := by
  have hremarks : Rule.quoteStyle.remarks conventions (.alone (.scalar (p.scalar number m))) =
      (Rule.quoteRemark? (p.scalar number m)).toList := rfl
  rw [(p.ordinary_scalar h number m).findingsAt_eq, hremarks, p.quoteRemark?_scalar h, findingsOf]
  cases hbare : p.bare with
  | true =>
    rw [if_pos rfl, List.filter_cons_of_pos (by exact hbare)]
    rfl
  | false =>
    rw [if_neg Bool.false_ne_true, List.filter_cons_of_neg (by simp [hbare])]
    rfl

/-! ### Findings about steps -/

/-- The findings at some visits. -/
def findingsAlong (path : String) (visits : List Visit) : List Diagnostic :=
  visits.flatMap (findingsAt path)

theorem findingsAlong_append (path : String) (a b : List Visit) :
    findingsAlong path (a ++ b) = findingsAlong path a ++ findingsAlong path b := by
  rw [findingsAlong, List.flatMap_append, ← findingsAlong, ← findingsAlong]

theorem findingsAlong_cons (path : String) (visit : Visit) (rest : List Visit) :
    findingsAlong path (visit :: rest) = findingsAt path visit ++ findingsAlong path rest := by
  rw [findingsAlong, List.flatMap_cons, ← findingsAlong]

theorem findingsAlong_nil (path : String) : findingsAlong path [] = [] := rfl

/-- At an entry there are the findings about its scalar. -/
theorem findings_entry {e : Playbook.Entry} {s : Playbook.Scalar} (hspacing : e.spacing = spaced)
    (hassigns : e.assigns = false) (hvalue : e.value = .scalar s) (path : String) :
    findingsAlong path (visitsOfEntry e) = findingsAt path (.alone (.scalar s)) := by
  have hsilent := (silent_entry hspacing hassigns).findingsAt_eq path
  rw [visitsOfEntry_eq, hvalue, Value.visits, findingsAlong_cons, findingsAlong_cons,
    findingsAlong_nil, List.append_nil, hsilent, List.nil_append]

theorem findings_partsFrom {ps : List Parameter} (h : ∀ p ∈ ps, p.IsString) (path : String)
    (number : Nat) (m : Module) :
    findingsAlong path (visitsOfEntries (partsFrom number m ps)) =
      findingsOf path (valuesFrom number ps) := by
  induction ps generalizing number with
  | nil => rfl
  | cons p rest ih =>
    have hentry : findingsAlong path (visitsOfEntry (p.part number m)) =
        findingsAt path (.alone (.scalar (p.scalar number m))) := findings_entry rfl rfl rfl path
    rw [partsFrom, visitsOfEntries, findingsAlong_append, hentry,
      p.findings_scalar (h p List.mem_cons_self), ih fun q hq => h q (List.mem_cons_of_mem _ hq),
      ← findingsOf_append]
    rfl

/-- Names and hosts may be quoted or not. -/
theorem Ordinary.findingsAt_eq_nil {s : Playbook.Scalar} (h : Ordinary s)
    (hcontext : s.context ≠ .moduleParam) (path : String) :
    findingsAt path (.alone (.scalar s)) = [] := by
  have hremarks : Rule.quoteStyle.remarks conventions (.alone (.scalar s)) = [] := if_neg hcontext
  rw [h.findingsAt_eq, hremarks, List.map_nil]

theorem Step.findings_titlePart (path : String) (number : Nat) (s : Step) :
    findingsAlong path (visitsOfEntry (s.titlePart number)) = [] := by
  let title : Playbook.Scalar := .ofOutline
    ((quoted s.title).scalarAt ⟨number, 6 + byteLength "name".toList + 3⟩) (some "name") (.of .name)
  have hordinary : Ordinary title := by
    refine ⟨.inr (.inl rfl), rfl, ?_⟩
    show '\x7b' ∉ (String.ofList s.title.toList).toList
    rw [String.toList_ofList]
    exact fun hmem => (s.isOrdinary_title _ hmem).2.2.2 rfl
  have hcontext : title.context ≠ .moduleParam := show Context.name ≠ .moduleParam by decide
  rw [findings_entry (s := title) rfl rfl rfl path]
  exact hordinary.findingsAt_eq_nil hcontext path

theorem findings_hostsPart (path : String) :
    findingsAlong path (visitsOfEntry hostsPart) = [] := by
  let hosts : Playbook.Scalar := .ofOutline
    (allHosts.scalarAt ⟨1, 2 + byteLength "hosts".toList + 3⟩) (some "hosts") (.of .hostTarget)
  have hordinary : Ordinary hosts := ⟨.inl rfl, rfl, by decide⟩
  rw [findings_entry (s := hosts) rfl rfl rfl path]
  exact hordinary.findingsAt_eq_nil (by decide) path

/-- Inside a step there are the findings about its values. -/
theorem Step.findings_inside {s : Step} (h : ∀ p ∈ s.parameters, p.IsString) (path : String)
    (number : Nat) :
    findingsAlong path (s.inside number) = findingsOf path (valuesFrom (number + 2) s.parameters) := by
  have hcall := (s.silent_call number).findingsAt_eq path
  have hparts := findings_partsFrom h path (number + 2) s.module
  have hvisits : (s.call number).visits = .alone (.module (s.call number)) ::
      visitsOfEntries (partsFrom (number + 2) s.module s.parameters) := rfl
  rw [Step.inside, findingsAlong_append, s.findings_titlePart, List.nil_append, hvisits,
    findingsAlong_cons, hcall, List.nil_append, hparts]

/-- The tasks of steps have the findings about their values, if the first of them
is the first of its list or has a blank line above. -/
theorem findings_tasksFrom {source : SourceLines} {steps : List Step}
    (h : ∀ s ∈ steps, ∀ p ∈ s.parameters, p.IsString) (path : String) {above : List (List Char)}
    (hsource : source.lines = above ++ stepLines steps) {previous? : Option Part}
    (hblank : previous?.isSome = true → above.getLast? = some []) :
    findingsAlong path (visitsOfItems previous? (tasksFrom source (above.length + 1) steps)) =
      findingsOf path (valuesOf (above.length + 1) steps) := by
  induction steps generalizing above previous? with
  | nil =>
    rw [tasksFrom, visitsOfItems]
    rfl
  | cons s rest ih =>
    have htask := (s.silent_task fun hsome =>
      SourceLines.blankLinesBefore_pos hsource (hblank hsome)).findingsAt_eq path
    have hinside := s.findings_inside (h s List.mem_cons_self) path (above.length + 1)
    have hrest : findingsAlong path (visitsOfItems (some (.task (s.task source (above.length + 1))))
        (tasksFrom source (above.length + 1 + s.parameters.length + 3) rest)) =
          findingsOf path (valuesOf (above.length + 1 + s.parameters.length + 3) rest) := by
      cases rest with
      | nil =>
        rw [tasksFrom, visitsOfItems]
        rfl
      | cons next others =>
        -- The lines of this step and the blank line behind it stand above the next.
        have hlines : source.lines = above ++ (s.lines ++ [[]]) ++ stepLines (next :: others) := by
          rw [hsource, stepLines]
          simp
        have hlength : (above ++ (s.lines ++ [[]])).length + 1 =
            above.length + 1 + s.parameters.length + 3 := by
          simp only [List.length_append, List.length_singleton, s.length_lines]
          omega
        rw [← hlength]
        exact ih (fun t ht => h t (List.mem_cons_of_mem _ ht)) hlines fun _ => by simp
    rw [tasksFrom, visitsOfItems, findingsAlong_cons, findingsAlong_append, s.visitsOfItem_task,
      hinside, TaskItem.part, htask, List.nil_append, hrest, valuesOf, findingsOf_append]

/-- **The findings about a conforming playbook are those about its bare values.** -/
theorem findings_playbook {steps : List Step}
    (h : ∀ s ∈ steps, ∀ p ∈ s.parameters, p.IsString) (stem : String) :
    Registry.builtin.findings {} (playbook (stem ++ ".yml") steps) =
      findingsOf (stem ++ ".yml") (values steps) := by
  have hdocument := (silent_document stem steps).findingsAt_eq (stem ++ ".yml")
  have hplay := (silent_play (.ofText (text steps).toList) steps).findingsAt_eq (stem ++ ".yml")
  have hsource : (SourceLines.ofText (text steps).toList).lines = playLines ++ stepLines steps := by
    rw [ofText_text, sourceLines]
  have hfirst : (none : Option Part).isSome = true → playLines.getLast? = some [] := by simp
  have htasks := findings_tasksFrom h (stem ++ ".yml") hsource hfirst
  have hfindings : Registry.builtin.findings {} (playbook (stem ++ ".yml") steps) =
      findingsAlong (stem ++ ".yml") (playbook (stem ++ ".yml") steps).visits := rfl
  rw [hfindings, visits_playbook, findingsAlong_cons, findingsAlong_cons, findingsAlong_append,
    hdocument, hplay, findings_hostsPart]
  exact htasks

end PlaybookStyle.Conforming
