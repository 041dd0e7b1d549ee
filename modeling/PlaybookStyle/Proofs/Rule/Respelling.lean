/-
What the rules say of a task that calls its module by another name.

Rules say the same of parts that are alike (`remarks_alike`), and the rules on blank lines
look at no name (`spacing_remarks_eq`). Of the task, of the call and of its text on one line
the rules say as much as before and with the same leads. Where they speak of the text, they
speak of the place that it has now; and only the rules that name modules use other words
(`Diagnostic.Respelt`).

* `Registry.findingsAt_respelt` — what is found at a part and at the one related to it.
-/

import PlaybookStyle.Proofs.Playbook.Renaming
import PlaybookStyle.Proofs.Rule.Leads
import PlaybookStyle.Proofs.Rule.Neighbours

namespace PlaybookStyle

open Playbook

/-! ### Findings before and after -/

/-- The place of the text on one line, or one that stays. -/
inductive Playbook.ModuleCall.Shifts (call call' : ModuleCall) : Position → Position → Prop
  | stays (place : Position) : Shifts call call' place place
  | args {s s' : Scalar} (old : call.args = .scalar s) (new : call'.args = .scalar s') :
      Shifts call call' s.position s'.position

/-- Findings that differ at most in the name of the module and the place of its text. -/
structure Diagnostic.Respelt (call call' : ModuleCall) (d d' : Diagnostic) : Prop where
  file : d'.file = d.file
  rule : d'.rule = d.rule
  severity : d'.severity = d.severity
  category : d'.category = d.category
  position : call.Shifts call' d.position d'.position
  lead : leadOf d'.message = leadOf d.message
  words : d.NamesModule ∨ d'.message = d.message ∧ d'.suggestion? = d.suggestion?

theorem Diagnostic.Respelt.refl {call call' : ModuleCall} (d : Diagnostic) : d.Respelt call call' d :=
  ⟨rfl, rfl, rfl, rfl, .stays _, rfl, .inr ⟨rfl, rfl⟩⟩

namespace Rule

variable {rule : Rule} {conventions : Conventions} {t : Task} {call call' : ModuleCall}

/-! ### Parts that are alike -/

/-- What the rules on extensions say of a scalar. -/
theorem extensions_remarks (conventions : Conventions) (s : Scalar) :
    fileExtension.remarks conventions (.alone (.scalar s)) =
        (if ((s.context = .includeTarget || s.context = .fileReference) && !s.isTemplated) = true then
          if isVaultName conventions.vaultMarkers s.text then []
          else (extensionRemark? conventions.extensions s.text s.position).toList
        else []) ∧
      vaultFileExtension.remarks conventions (.alone (.scalar s)) =
        if ((s.context = .includeTarget || s.context = .fileReference) && !s.isTemplated) = true then
          if isVaultName conventions.vaultMarkers s.text then (vaultRemark? s.text s.position).toList
          else []
        else [] := by
  simp only [fileExtension, vaultFileExtension, Visit.alone, namedFile?]
  by_cases h : ((s.context = .includeTarget || s.context = .fileReference) && !s.isTemplated) = true
  · simp only [if_pos h, and_self]
  · simp only [if_neg h, and_self]

/-- A rule that looks at no neighbours says the same of parts that are alike. -/
theorem remarks_alike (h : rule ∈ builtin) {part part' : Part} (alike : part.Alike part') :
    rule.remarks conventions (.alone part') = rule.remarks conventions (.alone part) := by
  cases alike with
  | refl => rfl
  | play | task | entry =>
    simp only [builtin, List.mem_cons, List.not_mem_nil, or_false] at h
    rcases h with rfl | rfl | rfl | rfl | rfl | rfl | rfl | rfl | rfl | rfl | rfl | rfl | rfl | rfl |
      rfl | rfl
    all_goals rfl
  | scalar s module? keyed =>
    -- A scalar with a key is called by it, whatever module it is a parameter of.
    obtain ⟨key, hkey⟩ := Option.isSome_iff_exists.mp keyed
    have hname : nameOf { s with module? := module? } = nameOf s := by
      simp only [nameOf, hkey]
    have hquote : quoteRemark? { s with module? := module? } = quoteRemark? s := by
      unfold quoteRemark?
      rw [hname]
    have hextensions := extensions_remarks conventions s
    have hextensions' := extensions_remarks conventions { s with module? := module? }
    simp only [builtin, List.mem_cons, List.not_mem_nil, or_false] at h
    rcases h with rfl | rfl | rfl | rfl | rfl | rfl | rfl | rfl | rfl | rfl | rfl | rfl | rfl | rfl |
      rfl | rfl
    case inl =>
      simp only [quoteStyle, Visit.alone, hquote]
    case inr.inr.inr.inr.inr.inr.inr.inr.inr.inr.inr.inr.inr.inr.inl =>
      rw [hextensions.1, hextensions'.1]
      rfl
    case inr.inr.inr.inr.inr.inr.inr.inr.inr.inr.inr.inr.inr.inr.inr =>
      rw [hextensions.2, hextensions'.2]
      rfl
    all_goals rfl

/-! ### Rules on blank lines -/

/-- The include that a part is. -/
def includeOf? : Part → Option Include
  | .inclusion i => some i
  | _ => none

/-- A part and one in its place, as far as the next part is concerned. -/
structure Borders (part part' : Part) : Prop where
  include? : includeOf? part' = includeOf? part
  endLine : part'.endLine = part.endLine

theorem borders_of_renamed (renamed : call.Renamed call') {part part' : Part}
    (h : Part.Renamed t call call' part part') : Borders part part' := by
  cases h with
  | alike h => cases h <;> exact ⟨rfl, rfl⟩
  | task => exact ⟨rfl, rfl⟩
  | module => exact ⟨rfl, renamed.endLine⟩
  | inline old new =>
    have hargs := renamed.args
    rw [old, new] at hargs
    cases hargs
    exact ⟨rfl, rfl⟩

/-- What is separated from a part: all but an include from an include. -/
theorem separated?_eq (part previous : Part) :
    separated? part previous =
      if (includeOf? part).isSome && (includeOf? previous).isSome then none
      else separated? part (.scalar default) := by
  cases part <;> cases previous <;> rfl

theorem includeSpacing_remarks (conventions : Conventions) (visit : Visit) :
    includeSpacing.remarks conventions visit =
      ((includeOf? visit.part).bind fun i =>
        (visit.previous?.bind includeOf?).bind (includeRemark? i)).toList := by
  obtain ⟨part, previous?⟩ := visit
  cases part with
  | inclusion i =>
    cases previous? with
    | none => rfl
    | some previous => cases previous <;> rfl
  | _ => rfl

/-- The rules on blank lines say the same of parts in one place. -/
theorem spacing_remarks_eq (spacing : rule.IsSpacing) (renamed : call.Renamed call')
    {visit visit' : Visit} (h : visit.Matches (Part.Renamed t call call') visit') :
    rule.remarks conventions visit' = rule.remarks conventions visit := by
  obtain ⟨part, previous?⟩ := visit
  obtain ⟨part', previous?'⟩ := visit'
  obtain ⟨hpart, hprevious⟩ := h
  dsimp only at hpart hprevious
  have hinclude := (borders_of_renamed renamed hpart).include?
  have hself : separated? part' (.scalar default) = separated? part (.scalar default) := by
    cases hpart with
    | alike h => cases h <;> rfl
    | task | module | inline => rfl
  cases hprevious with
  | none =>
    rcases spacing with rfl | rfl
    · rfl
    · rw [includeSpacing_remarks, includeSpacing_remarks, hinclude]
  | some hprevious =>
    obtain ⟨hprevious, hend⟩ := borders_of_renamed renamed hprevious
    rcases spacing with rfl | rfl
    · simp only [blockSpacing, Option.bind_some, blockRemark?]
      rw [separated?_eq part', separated?_eq part, hinclude, hprevious, hself, hend]
    · simp only [includeSpacing_remarks, Option.bind_some, hinclude, hprevious]

/-! ### The call -/

section Call

variable {settings : Settings} {path : String}

/-- Remarks of a rule that become findings so related. -/
def Restates (rule : Rule) (call call' : ModuleCall) (settings : Settings) (path : String)
    (a b : Remark) : Prop :=
  (rule.finding settings path a).Respelt call call' (rule.finding settings path b)

/-- What a rule that names modules says at one place in other words, with the same lead. -/
theorem respelt_of_names {a b : Remark} (names : (rule.finding settings path a).NamesModule)
    (position : call.Shifts call' a.position b.position)
    (lead : leadOf b.message = leadOf a.message) : rule.Restates call call' settings path a b :=
  ⟨rfl, rfl, rfl, rfl, position, lead, .inl names⟩

theorem forall₂_toList {α : Type} {R : α → α → Prop} {a? b? : Option α}
    (some : b?.isSome = a?.isSome) (h : ∀ a ∈ a?, ∀ b ∈ b?, R a b) :
    List.Forall₂ R a?.toList b?.toList := by
  cases a? with
  | none =>
    obtain rfl := Option.not_isSome_iff_eq_none.mp (Bool.eq_false_iff.mp some)
    exact .nil
  | some a =>
    obtain ⟨b, rfl⟩ := Option.isSome_iff_exists.mp some
    exact .cons (h a rfl b rfl) .nil

/-- What is said of the colon of one key and of another in its place. -/
theorem colonRemarks_respelt (key key' : String) (position : Position) (spacing : KeySpacing) :
    List.Forall₂ (keySpacing.Restates call call' settings path) (colonRemarks key position spacing)
      (colonRemarks key' position spacing) := by
  have hplace : ∀ {key a}, a ∈ colonRemarks key position spacing → a.position = position :=
    colonRemarks_position
  have hrespelt : ∀ {a b}, a ∈ colonRemarks key position spacing →
      b ∈ colonRemarks key' position spacing → leadOf b.message = leadOf a.message →
        keySpacing.Restates call call' settings path a b := by
    intro a b ha hb lead
    refine respelt_of_names (.inl rfl) ?_ lead
    rw [hplace ha, hplace hb]
    exact .stays position
  refine List.rel_append (forall₂_toList ?_ fun a ha b hb => ?_) (forall₂_toList ?_ fun a ha b hb => ?_)
  · unfold beforeColonRemark?
    split <;> rfl
  · refine hrespelt (List.mem_append_left _ (Option.mem_toList.mpr ha))
      (List.mem_append_left _ (Option.mem_toList.mpr hb)) ?_
    rw [lead_beforeColon ha, lead_beforeColon hb]
  · unfold afterColonRemark?
    repeat' split
    all_goals rfl
  · refine hrespelt (List.mem_append_right _ (Option.mem_toList.mpr ha))
      (List.mem_append_right _ (Option.mem_toList.mpr hb)) ?_
    rw [lead_afterColon ha, lead_afterColon hb]

/-- What is said of the parameters of the call. -/
theorem moduleRemark?_respelt (renamed : call.Renamed call') :
    List.Forall₂ (mapSyntax.Restates call call' settings path) (moduleRemark? call).toList
      (moduleRemark? call').toList := by
  have hargs := renamed.args
  generalize hold : call.args = args at hargs
  generalize hnew : call'.args = args' at hargs
  cases hargs with
  | null | mapping =>
    rw [moduleRemark?, moduleRemark?, hold, hnew]
    exact .nil
  | inline s inline text key? position =>
    refine forall₂_toList ?_ fun a ha b hb => respelt_of_names (.inr (.inl ⟨rfl, ?_⟩)) ?_ ?_
    · simp only [moduleRemark?, hold, hnew, renamed.short]
      rw [apply_ite Option.isSome, apply_ite Option.isSome]
      rfl
    · change leadOf a.message ≠ roleLead
      rw [lead_module ha]
      split <;> decide
    · have hplace : ∀ {call : ModuleCall} {a s}, call.args = .scalar s → moduleRemark? call = some a →
          a.position = s.position := by
        intro call a s hargs hremark
        simp only [moduleRemark?, hargs] at hremark
        split at hremark
        · obtain rfl := Option.some.inj hremark
          rfl
        · cases hremark
      rw [hplace hold ha, hplace hnew hb]
      exact .args hold hnew
    · rw [lead_module ha, lead_module hb, renamed.short]

/-! ### The task -/

/-- Fields that step back are found at the same places under other keys. -/
theorem misplaced_forall₂ {κ : Type} (rank : κ → Nat) {fields fields' : List (Playbook.Field κ)}
    (h : List.Forall₂ (fun f f' => f'.kind = f.kind ∧ f'.position = f.position) fields fields')
    {furthest? furthest?' : Option (Nat × String)}
    (same : Option.Rel (fun a b => b.1 = a.1) furthest? furthest?') :
    List.Forall₂ (fun a b => b.1.position = a.1.position) (misplaced rank furthest? fields)
      (misplaced rank furthest?' fields') := by
  induction h generalizing furthest? furthest?' with
  | nil =>
    rw [misplaced, misplaced]
    exact .nil
  | @cons field field' rest rest' hfield _ ih =>
    cases same with
    | none =>
      rw [misplaced, misplaced]
      exact ih (.some (by rw [hfield.1]))
    | @some furthest furthest' hsame =>
      obtain ⟨reached, key⟩ := furthest
      obtain ⟨reached', key'⟩ := furthest'
      obtain rfl : reached' = reached := hsame
      rw [misplaced, misplaced, hfield.1]
      split
      · exact .cons hfield.2 (ih (.some rfl))
      · split
        · exact ih (.some rfl)
        · exact ih (.some rfl)

theorem taskOrderRemarks_respelt (t : Task) :
    List.Forall₂ (taskFieldOrder.Restates call call' settings path) (taskOrderRemarks t)
      (taskOrderRemarks (t.calling call')) := by
  have hfields : List.Forall₂ (fun f f' => f'.kind = f.kind ∧ f'.position = f.position) t.fields
      (t.calling call').fields := by
    rw [TaskOf.calling, List.forall₂_map_right_iff, List.forall₂_same]
    intro field _
    unfold Field.calling
    split <;> exact ⟨rfl, rfl⟩
  unfold taskOrderRemarks
  rw [List.forall₂_map_left_iff, List.forall₂_map_right_iff]
  refine (misplaced_forall₂ TaskFieldKind.rank hfields .none).imp ?_
  rintro ⟨field, key⟩ ⟨field', key'⟩ hplace
  refine respelt_of_names (.inr (.inr rfl)) ?_ ((lead_back field' key').trans (lead_back field key).symm)
  dsimp only
  rw [show field'.position = field.position from hplace]
  exact .stays field.position

theorem parameterRemarks_respelt (renamed : call.Renamed call') :
    List.Forall₂ (taskFieldOrder.Restates call call' settings path) (parameterRemarks call)
      (parameterRemarks call') := by
  have hkeys : (call'.params?.getD []).map (fun e => (e.key, e.position)) =
      (call.params?.getD []).map fun e => (e.key, e.position) := by
    have hargs := renamed.args
    unfold ModuleCall.params?
    generalize call.args = args at hargs
    generalize call'.args = args' at hargs
    cases hargs with
    | null | inline => rfl
    | mapping keys => exact keys
  have hlead : ∀ {call : ModuleCall} {a : Remark}, a ∈ parameterRemarks call →
      leadOf a.message = "Parameter ".toList := lead_parameter
  unfold parameterRemarks at hlead ⊢
  rw [hkeys, List.forall₂_map_left_iff, List.forall₂_map_right_iff, List.forall₂_same]
  rintro ⟨key, previous, place⟩ hfound
  refine respelt_of_names (.inr (.inr rfl)) (.stays place) ?_
  have hfound' := hfound
  rw [← hkeys] at hfound'
  exact (@hlead call' _ (List.mem_map_of_mem hfound')).trans
    (@hlead call _ (List.mem_map_of_mem hfound)).symm

/-- The options of the task are untouched by the other name of its module. -/
theorem taskOptionRemarks_calling (renames : t.Renames call call') :
    taskOptionRemarks (t.calling call') = taskOptionRemarks t := by
  have hkeys : keysOfKind .option (t.calling call').fields = keysOfKind .option t.fields := by
    have hkind : ∀ field : Playbook.Field TaskFieldKind, (field.calling call').kind = field.kind := by
      intro field
      unfold Field.calling
      split <;> rfl
    rw [TaskOf.calling, keysOfKind, keysOfKind, List.filter_map, List.map_map]
    simp only [Function.comp_def, hkind]
    refine List.map_congr_left fun field hfield => ?_
    obtain ⟨hfield, hoption⟩ := List.mem_filter.mp hfield
    have hother : field.position ≠ call'.position := by
      intro hplace
      have hmodule := (renames.field field hfield (hplace.trans renames.renamed.position)).1
      rw [hmodule] at hoption
      cases hoption
    rw [Field.calling, if_neg hother]
  rw [taskOptionRemarks, taskOptionRemarks, hkeys]

/-- What is said of the order of the task. -/
theorem taskFieldOrder_respelt (renames : t.Renames call call') (conventions : Conventions)
    (previous? previous?' : Option Part) :
    List.Forall₂ (taskFieldOrder.Restates call call' settings path)
      (taskFieldOrder.remarks conventions ⟨.task t, previous?⟩)
      (taskFieldOrder.remarks conventions ⟨.task (t.calling call'), previous?'⟩) := by
  refine List.rel_append (List.rel_append (taskOrderRemarks_respelt t) ?_) ?_
  · rw [renames.module, TaskOf.calling, Option.toList_some, Option.toList_some, List.flatMap_singleton,
      List.flatMap_singleton]
    exact parameterRemarks_respelt renames.renamed
  · rw [taskOptionRemarks_calling renames, List.forall₂_same]
    exact fun remark _ => .refl _

/-! ### Rules at the task, the call and its text -/

/-- The rules that look at tasks say the same of its entries, or speak of its order. -/
theorem remarks_task_respelt (builtin : rule ∈ builtin) (kind : rule.kinds.contains .task = true)
    (renames : t.Renames call call') {conventions : Conventions} :
    List.Forall₂ (rule.Restates call call' settings path)
      (rule.remarks conventions (.alone (.task t)))
      (rule.remarks conventions (.alone (.task (t.calling call')))) := by
  have hrule : rule ∈ [sudoBecome, taskFieldOrder, blockSpacing] :=
    show rule ∈ Rule.builtin.filter (·.kinds.contains .task) from
      List.mem_filter.mpr ⟨builtin, kind⟩
  simp only [List.mem_cons, List.not_mem_nil, or_false] at hrule
  rcases hrule with rfl | rfl | rfl
  · exact List.forall₂_same.mpr fun remark _ => .refl _
  · exact taskFieldOrder_respelt renames conventions none none
  · exact .nil

/-- Of the call it is said how its colon and its parameters are written. -/
theorem remarks_module_respelt (builtin : rule ∈ builtin) (kind : rule.kinds.contains .module = true)
    (renamed : call.Renamed call') {conventions : Conventions} :
    List.Forall₂ (rule.Restates call call' settings path)
      (rule.remarks conventions (.alone (.module call)))
      (rule.remarks conventions (.alone (.module call'))) := by
  have hrule : rule ∈ [keySpacing, mapSyntax] :=
    show rule ∈ Rule.builtin.filter (·.kinds.contains .module) from
      List.mem_filter.mpr ⟨builtin, kind⟩
  simp only [List.mem_cons, List.not_mem_nil, or_false] at hrule
  rcases hrule with rfl | rfl
  · simp only [keySpacing, Visit.alone, renamed.position, renamed.spacing]
    exact colonRemarks_respelt call.name call'.name call.position call.spacing
  · exact moduleRemark?_respelt renamed

/-- Of its text on one line, how the expressions in it are spaced. -/
theorem remarks_inline_respelt (builtin : rule ∈ builtin) {s s' : Scalar}
    (kind : rule.kinds.contains (Part.scalar s).kind = true) (renamed : call.Renamed call')
    (old : call.args = .scalar s) (new : call'.args = .scalar s') {conventions : Conventions} :
    List.Forall₂ (rule.Restates call call' settings path)
      (rule.remarks conventions (.alone (.scalar s)))
      (rule.remarks conventions (.alone (.scalar s'))) := by
  have hargs := renamed.args
  rw [old, new] at hargs
  cases hargs with
  | inline _ inline text key? position =>
    have hkind : (Part.scalar s).kind = .scalar := by simp [Part.kind, inline]
    rw [hkind] at kind
    have hrule : rule ∈ [quoteStyle, booleanLiteral, variableNaming, jinjaSpacing, fileExtension,
        vaultFileExtension] :=
      show rule ∈ Rule.builtin.filter (·.kinds.contains .scalar) from
        List.mem_filter.mpr ⟨builtin, kind⟩
    simp only [List.mem_cons, List.not_mem_nil, or_false] at hrule
    rcases hrule with rfl | rfl | rfl | rfl | rfl | rfl
    · simp only [quoteStyle, Visit.alone, inline, reduceCtorEq, if_false]
      exact .nil
    · simp only [booleanLiteral, Visit.alone, text, reduceCtorEq, if_false]
      exact .nil
    · simp only [variableNaming, Visit.alone, inline, reduceCtorEq, if_false]
      exact .nil
    · simp only [jinjaSpacing, Visit.alone]
      rw [List.forall₂_map_left_iff, List.forall₂_map_right_iff, List.forall₂_same]
      exact fun inner _ => ⟨rfl, rfl, rfl, rfl, .args old new, rfl, .inr ⟨rfl, rfl⟩⟩
    · rw [(extensions_remarks conventions _).1, (extensions_remarks conventions _).1]
      simp only [inline, reduceCtorEq, decide_false, Bool.or_self, Bool.false_and,
        Bool.false_eq_true, if_false]
      exact .nil
    · rw [(extensions_remarks conventions _).2, (extensions_remarks conventions _).2]
      simp only [inline, reduceCtorEq, decide_false, Bool.or_self, Bool.false_and,
        Bool.false_eq_true, if_false]
      exact .nil

end Call

end Rule

/-! ### Findings -/

namespace Registry

variable {settings : Settings} {path : String} {t : Task} {call call' : ModuleCall}

/-- The kind of a part that a rule is told. -/
theorem kind_of_renamed (renamed : call.Renamed call') {part part' : Part}
    (h : Part.Renamed t call call' part part') : part'.kind = part.kind := by
  cases h with
  | alike h => cases h <;> rfl
  | task | module => rfl
  | inline old new =>
    have hargs := renamed.args
    rw [old, new] at hargs
    cases hargs
    rfl

/-- **What is found at a part** and at the one that is related to it differs at most in the
name of the module and in the place of the text that it is called with. -/
theorem findingsAt_respelt (renames : t.Renames call call') {visit visit' : Visit}
    (h : visit.Matches (Part.Renamed t call call') visit') :
    List.Forall₂ (Diagnostic.Respelt call call') (builtin.findingsAt settings path visit)
      (builtin.findingsAt settings path visit') := by
  unfold findingsAt
  rw [kind_of_renamed renames.renamed h.part]
  refine forall₂_flatMap fun rule hrule => Rule.findings_forall₂ ?_
  obtain ⟨hbuiltin, hkind⟩ := List.mem_filter.mp hrule
  have hsame : rule.remarks settings.conventions visit' = rule.remarks settings.conventions visit →
      List.Forall₂ (rule.Restates call call' settings path)
        (rule.remarks settings.conventions visit) (rule.remarks settings.conventions visit') := by
    intro heq
    rw [heq, List.forall₂_same]
    exact fun remark _ => .refl _
  rcases Rule.isSpacing_or_of_mem_builtin hbuiltin with spacing | ⟨-, alone⟩
  · exact hsame (Rule.spacing_remarks_eq spacing renames.renamed h)
  · obtain ⟨part, previous?⟩ := visit
    obtain ⟨part', previous?'⟩ := visit'
    have hpart := h.part
    dsimp only at hpart hkind
    cases hpart with
    | alike halike =>
      exact hsame (((alone _ part' previous?').trans (Rule.remarks_alike hbuiltin halike)).trans
        (alone _ part previous?).symm)
    | task =>
      rw [alone _ _ previous?, alone _ _ previous?']
      exact Rule.remarks_task_respelt hbuiltin hkind renames
    | module =>
      rw [alone _ _ previous?, alone _ _ previous?']
      exact Rule.remarks_module_respelt hbuiltin hkind renames.renamed
    | inline old new =>
      rw [alone _ _ previous?, alone _ _ previous?']
      exact Rule.remarks_inline_respelt hbuiltin hkind renames.renamed old new

end Registry

end PlaybookStyle
