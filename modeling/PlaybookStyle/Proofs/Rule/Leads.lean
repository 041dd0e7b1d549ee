/-
What is said of modules at one place.

Three rules name modules in what they say: those on colons, on parameters and on the order
of a task. The words of a message before the first name in it are its lead. At one place
such a rule says no two things with one lead: the place tells the entry, the call or the
task that is spoken of, and the lead what is said of it. What the rule on parameters says
of roles has a lead of its own, and is left aside.

* `Registry.findings_eq_of_lead` — a finding that names a module is told by its rule, its
  place and its lead.
-/

import PlaybookStyle.Proofs.Playbook.Qualified
import PlaybookStyle.Proofs.Rule.Colon
import PlaybookStyle.Proofs.Rule.Order

namespace PlaybookStyle

open Playbook

/-! ### Leads -/

/-- The words of a message before the first name in it. -/
def leadOf (message : String) : List Char := message.toList.takeWhile (· ≠ '\'')

/-- A name begins in the text. -/
def HasName (text : String) : Prop := '\'' ∈ text.toList

instance (text : String) : Decidable (HasName text) := inferInstanceAs (Decidable (_ ∈ _))

theorem hasName_append {start rest : String} :
    HasName (start ++ rest) ↔ HasName start ∨ HasName rest := by
  rw [HasName, String.toList_append]
  exact List.mem_append

theorem leadOf_append {start : String} (h : HasName start) (rest : String) :
    leadOf (start ++ rest) = leadOf start := by
  obtain ⟨before, after, hsplit⟩ := List.append_of_mem h
  rw [leadOf, leadOf, String.toList_append, hsplit, List.append_assoc, List.cons_append,
    List.takeWhile_append, List.takeWhile_append]
  simp

namespace Rule

/-- The lead of what is said of the parameters of a role. -/
def roleLead : List Char := "Parameters of role ".toList

section Leads

variable {key : String} {position : Position} {spacing : KeySpacing} {remark : Remark}

theorem lead_beforeColon (h : beforeColonRemark? key position spacing = some remark) :
    leadOf remark.message = "Unexpected space before the colon after ".toList := by
  unfold beforeColonRemark? at h
  split at h
  · obtain rfl := Option.some.inj h
    change leadOf (_ ++ _ ++ _) = _
    simp +decide only [leadOf_append, hasName_append, true_or]
  · cases h

theorem lead_afterColon (h : afterColonRemark? key position spacing = some remark) :
    leadOf remark.message =
      if spacing.tabAfterColon then "Expected a space after the colon of ".toList
      else "Expected exactly one space after the colon of ".toList := by
  unfold afterColonRemark? at h
  split at h
  · rename_i htab
    rw [if_pos htab]
    obtain rfl := Option.some.inj h
    change leadOf (_ ++ _ ++ _) = _
    simp +decide only [leadOf_append, hasName_append, true_or]
  · rename_i htab
    rw [if_neg htab]
    split at h
    · cases h
    · cases h
    · obtain rfl := Option.some.inj h
      change leadOf (_ ++ _ ++ _ ++ _) = _
      simp +decide only [leadOf_append, hasName_append, true_or]

theorem lead_module {call : ModuleCall} (h : moduleRemark? call = some remark) :
    leadOf remark.message =
      if commandModules.contains (shortModuleName call.name) then "Options of module ".toList
      else "Parameters of module ".toList := by
  unfold moduleRemark? at h
  split at h
  · dsimp only at h
    split at h
    · obtain rfl := Option.some.inj h
      dsimp only
      split
      · simp +decide only [leadOf_append, hasName_append, true_or]
      · simp +decide only [leadOf_append, hasName_append, true_or]
    · cases h
  · cases h

theorem lead_role {role : Role} (h : roleRemark? role = some remark) :
    leadOf remark.message = roleLead := by
  unfold roleRemark? at h
  split at h
  · obtain rfl := Option.some.inj h
    change leadOf (_ ++ _ ++ _) = _
    simp +decide only [leadOf_append, hasName_append, true_or]
  · cases h

theorem lead_back (field : Playbook.Field TaskFieldKind) (key : String) :
    leadOf (taskOrder.back field key).1.message = "Field ".toList := by
  change leadOf (_ ++ _ ++ _ ++ _ ++ _) = _
  simp +decide only [leadOf_append, hasName_append, true_or]

theorem lead_below (key previous : String) (place : Position) :
    leadOf (taskOrder.below key previous place).1.message = "Task option ".toList := by
  change leadOf (_ ++ _ ++ _ ++ _ ++ _) = _
  simp +decide only [leadOf_append, hasName_append, true_or]

theorem lead_parameter {call : ModuleCall} (h : remark ∈ parameterRemarks call) :
    leadOf remark.message = "Parameter ".toList := by
  obtain ⟨⟨key, previous, place⟩, -, rfl⟩ := List.mem_map.mp h
  change leadOf (_ ++ _ ++ _ ++ _ ++ _ ++ _ ++ _) = _
  simp +decide only [leadOf_append, hasName_append, true_or]

end Leads

/-! ### One thing with one lead -/

/-- What the rule on colons says of one colon is told by the lead. -/
theorem remarksOn_eq_of_lead {c : Colon} {a b : Remark} (ha : a ∈ remarksOn c) (hb : b ∈ remarksOn c)
    (lead : leadOf a.message = leadOf b.message) : a = b := by
  have hdiffer : ∀ {a b}, beforeColonRemark? c.key c.position c.spacing = some a →
      afterColonRemark? c.key c.position c.spacing = some b → leadOf a.message ≠ leadOf b.message := by
    intro a b ha hb
    rw [lead_beforeColon ha, lead_afterColon hb]
    split <;> decide
  rw [remarksOn, colonRemarks, List.mem_append, Option.mem_toList, Option.mem_toList] at ha hb
  rcases ha with ha | ha <;> rcases hb with hb | hb
  · exact Option.some.inj (ha.symm.trans hb)
  · exact absurd lead (hdiffer ha hb)
  · exact absurd lead.symm (hdiffer hb ha)
  · exact Option.some.inj (ha.symm.trans hb)

section Tasks

variable {before : List (Playbook.Field TaskFieldKind)} {field : Playbook.Field TaskFieldKind}
  {a b : Remark}

/-- What is said of one field is told by the lead. -/
theorem says_eq_of_lead (ha : taskOrder.Says before field a) (hb : taskOrder.Says before field b)
    (lead : leadOf a.message = leadOf b.message) : a = b := by
  cases ha with
  | misplaced back =>
    cases hb with
    | misplaced back' =>
      obtain ⟨first, hfirst, hback⟩ := back
      obtain ⟨-, rfl⟩ := (isMisplaced_iff hfirst).mp back'
      rw [hback.2]
    | unsorted =>
      rw [lead_back, lead_below] at lead
      exact absurd lead (by decide)
  | unsorted option below =>
    cases hb with
    | misplaced =>
      rw [lead_back, lead_below] at lead
      exact absurd lead (by decide)
    | unsorted _ below' =>
      obtain rfl := Option.some.inj (below.1.symm.trans below'.1)
      rfl

/-- What is said at one place of a task is told by the lead. -/
theorem saysOfTask_eq_of_lead {t : Task} (nodup : t.places.Nodup) (ha : SaysOfTask t a)
    (hb : SaysOfTask t b) (place : a.position = b.position)
    (lead : leadOf a.message = leadOf b.message) : a = b := by
  obtain ⟨before, field, after, hsplit, said⟩ | ⟨call, hcall, before, e, after, hsplit, said⟩ :=
    saysOfTask_iff.mp ha
  · have said' := (saysOfTask_field_iff nodup hsplit).mp ⟨hb, place.symm.trans said.position⟩
    exact says_eq_of_lead said said' lead
  · have said' := (saysOfTask_parameter_iff nodup hcall hsplit).mp
      ⟨hb, place.symm.trans said.position⟩
    obtain ⟨below⟩ := said
    obtain ⟨below'⟩ := said'
    obtain rfl := Option.some.inj (below.1.symm.trans below'.1)
    rfl

end Tasks

/-! ### On the walk -/

section Walk

variable {path content : String} {playbook : Playbook} {settings : Settings} {conventions : Conventions}
  {visit other : Visit} {a b : Remark}

/-- What the rule on colons says is told by the place and the lead. -/
theorem keySpacing_eq_of_lead (parsed : Playbook.parse path content = .ok playbook)
    (hvisit : visit ∈ playbook.visits) (hother : other ∈ playbook.visits)
    (ha : a ∈ keySpacing.remarks conventions visit) (hb : b ∈ keySpacing.remarks conventions other)
    (place : a.position = b.position) (lead : leadOf a.message = leadOf b.message) : a = b := by
  rw [keySpacing_remarks] at ha hb
  obtain ⟨c, hc, ha⟩ := List.mem_flatMap.mp ha
  obtain ⟨c', hc', hb⟩ := List.mem_flatMap.mp hb
  have hentry : ∀ {visit c}, visit ∈ playbook.visits → c ∈ visit.part.colon?.toList →
      ∃ e ∈ (Outline.scan content.toList).root.allEntries, e.colon = c := by
    intro visit c hvisit hc
    obtain ⟨e, reached, hcolon⟩ := (mem_colons_visits parsed).mp
      (List.mem_filterMap.mpr ⟨visit, hvisit, Option.mem_toList.mp hc⟩)
    exact ⟨e, reached.mem_allEntries, hcolon⟩
  obtain ⟨e, he, rfl⟩ := hentry hvisit hc
  obtain ⟨e', he', rfl⟩ := hentry hother hc'
  have hplace : e'.position = e.position :=
    (colonRemarks_position hb).symm.trans (place.symm.trans (colonRemarks_position ha))
  obtain rfl := (Outline.scan_alone content.toList he).only e' he' hplace
  exact remarksOn_eq_of_lead ha hb lead

/-- A call with a scalar for its argument has it from the outline. -/
theorem exists_scalar_of_args {e : Outline.Entry Outline.Node} {args : Scalar}
    (h : (ModuleCall.ofEntry e).args = .scalar args) :
    ∃ s, e.value = .scalar s ∧ s.position = args.position := by
  obtain ⟨key, position, spacing, value, endLine⟩ := e
  cases value with
  | scalar s =>
    obtain rfl := Value.scalar.inj h
    exact ⟨s, rfl, rfl⟩
  | mapping | sequence | empty => simp [ModuleCall.ofEntry, Value.ofNode] at h

/-- Where the rule on parameters speaks of a call, the place tells the call. -/
theorem call_eq_of_place (parsed : Playbook.parse path content = .ok playbook)
    (hvisit : visit ∈ playbook.visits) (hother : other ∈ playbook.visits) {call call' : ModuleCall}
    (hcall : visit.part = .module call) (hcall' : other.part = .module call')
    (ha : moduleRemark? call = some a) (hb : moduleRemark? call' = some b)
    (place : a.position = b.position) : call = call' := by
  have hvalue : ∀ {visit call a}, visit ∈ playbook.visits → visit.part = .module call →
      moduleRemark? call = some a → ∃ e ∈ (Outline.scan content.toList).root.allEntries,
        call = .ofEntry e ∧ ∃ s, e.value = .scalar s ∧ s.position = a.position := by
    intro visit call a hvisit hcall hremark
    obtain ⟨t, ht, module⟩ := exists_task_of_call hvisit hcall
    obtain ⟨e, he, rfl, -⟩ := exists_call_of_mem_tasks parsed ht module
    refine ⟨e, he, rfl, ?_⟩
    unfold moduleRemark? at hremark
    split at hremark
    · rename_i args hargs
      dsimp only at hremark
      split at hremark
      · obtain rfl := Option.some.inj hremark
        exact exists_scalar_of_args hargs
      · cases hremark
    · cases hremark
  obtain ⟨e, he, rfl, s, value, hposition⟩ := hvalue hvisit hcall ha
  obtain ⟨e', he', rfl, s', value', hposition'⟩ := hvalue hother hcall' hb
  have hline : s.position.line = s'.position.line := by rw [hposition, hposition', place]
  rw [Outline.scan_eq_of_values content.toList he he' value value' hline]

/-- What the rule on parameters says of a call is told by the place. -/
theorem mapSyntax_eq_of_lead (parsed : Playbook.parse path content = .ok playbook)
    (hvisit : visit ∈ playbook.visits) (hother : other ∈ playbook.visits)
    (ha : a ∈ mapSyntax.remarks conventions visit) (hb : b ∈ mapSyntax.remarks conventions other)
    (place : a.position = b.position) (lead : leadOf a.message = leadOf b.message)
    (call : leadOf a.message ≠ roleLead) : a = b := by
  have hmodule : ∀ {visit a}, a ∈ mapSyntax.remarks conventions visit → leadOf a.message ≠ roleLead →
      ∃ m, visit.part = .module m ∧ moduleRemark? m = some a := by
    rintro ⟨part, previous?⟩ a ha hlead
    cases part with
    | module m => exact ⟨m, rfl, Option.mem_toList.mp ha⟩
    | role r => exact absurd (lead_role (Option.mem_toList.mp ha)) hlead
    | document | play | task | inclusion | entry | scalar => cases ha
  obtain ⟨m, hm, ha⟩ := hmodule ha call
  obtain ⟨m', hm', hb⟩ := hmodule hb (lead ▸ call)
  obtain rfl := call_eq_of_place parsed hvisit hother hm hm' ha hb place
  exact Option.some.inj (ha.symm.trans hb)

/-- What the rule on the order of tasks says is told by the place and the lead. -/
theorem taskFieldOrder_eq_of_lead (parsed : Playbook.parse path content = .ok playbook)
    (hvisit : visit ∈ playbook.visits) (hother : other ∈ playbook.visits)
    (ha : a ∈ taskFieldOrder.remarks settings.conventions visit)
    (hb : b ∈ taskFieldOrder.remarks settings.conventions other)
    (place : a.position = b.position) (lead : leadOf a.message = leadOf b.message) : a = b := by
  have htask : ∀ {visit a}, visit ∈ playbook.visits →
      a ∈ taskFieldOrder.remarks settings.conventions visit →
        ∃ t ∈ playbook.tasks, SaysOfTask t a := by
    rintro ⟨part, previous?⟩ a hvisit ha
    cases part with
    | task t =>
      obtain ⟨t, ht, said⟩ := mem_taskFieldOrder_iff.mp ⟨_, hvisit, rfl, ha⟩
      exact ⟨t, ht.mem_tasks, said⟩
    | document | play | module | role | inclusion | entry | scalar => cases ha
  obtain ⟨t, ht, said⟩ := htask hvisit ha
  obtain ⟨t', ht', said'⟩ := htask hother hb
  obtain rfl := eq_of_place parsed ht ht' said.mem_places (place ▸ said'.mem_places)
  exact saysOfTask_eq_of_lead (places_nodup parsed ht) said said' place lead

end Walk

end Rule

/-! ### Findings -/

/-- A finding of a rule that names modules, unless it is on the parameters of a role. -/
def Diagnostic.NamesModule (d : Diagnostic) : Prop :=
  d.rule = Rule.keySpacing.id ∨ d.rule = Rule.mapSyntax.id ∧ leadOf d.message ≠ Rule.roleLead ∨
    d.rule = Rule.taskFieldOrder.id

/-- **A finding that names a module** is told by its rule, its place and its lead. -/
theorem Registry.findings_eq_of_lead {settings : Settings} {path content : String}
    {playbook : Playbook} (parsed : Playbook.parse path content = .ok playbook) {a b : Diagnostic}
    (ha : a ∈ builtin.findings settings playbook) (hb : b ∈ builtin.findings settings playbook)
    (names : a.NamesModule) (same : a.rule = b.rule) (place : a.position = b.position)
    (lead : leadOf a.message = leadOf b.message) : a = b := by
  obtain ⟨visit, hvisit, ha⟩ := List.mem_flatMap.mp ha
  obtain ⟨other, hother, hb⟩ := List.mem_flatMap.mp hb
  obtain ⟨rule, hrule, remark, hremark, rfl⟩ := exists_remark_of_mem_findingsAt ha
  obtain ⟨rule', hrule', remark', hremark', rfl⟩ := exists_remark_of_mem_findingsAt hb
  have hbuiltin := (List.mem_filter.mp hrule).1
  have honly : ∀ {found : Rule}, found ∈ Rule.builtin → rule.id = found.id → rule = found :=
    fun hfound hid => List.inj_on_of_nodup_map Registry.builtin.distinct hbuiltin hfound hid
  obtain rfl := honly (List.mem_filter.mp hrule').1 same
  suffices h : remark = remark' by rw [h]
  rcases names with hid | ⟨hid, call⟩ | hid
  · obtain rfl := honly (by simp [Rule.builtin]) hid
    exact Rule.keySpacing_eq_of_lead parsed hvisit hother hremark hremark' place lead
  · obtain rfl := honly (by simp [Rule.builtin]) hid
    exact Rule.mapSyntax_eq_of_lead parsed hvisit hother hremark hremark' place lead call
  · obtain rfl := honly (by simp [Rule.builtin]) hid
    exact Rule.taskFieldOrder_eq_of_lead parsed hvisit hother hremark hremark' place lead

end PlaybookStyle
