/-
Where the rules on the order of keys report.

Both rules say about a key what `FieldOrder.Says` has, one for each play and one for
each task that the walk comes to. A place tells its play or task, and which of its keys
it is; so the findings at a place are what is said about that key
(`mem_hostBlockOrder_iff`, `mem_taskFieldOrder_iff`), and there are none at the keys of
a play or task exactly if its kinds never step back and its options and parameters are
sorted (`Linter.check_order`). A task in a list whose key stands twice in the task
around it may be left out by the walk; then nothing is said about it.
-/

import PlaybookStyle.Proofs.Playbook.Tasks
import PlaybookStyle.Proofs.Rule.Separation
import PlaybookStyle.Proofs.Rule.Steps

namespace PlaybookStyle

open Playbook Rule

/-- The findings of a rule at a place are those of what is said there. -/
def Report.SaysAt (report : Report) (rule : Rule) (settings : Settings) (path : String)
    (place : Position) (said : Remark → Prop) : Prop :=
  ∀ d, (d ∈ report.diagnostics ∧ d.rule = rule.id ∧ d.position = place) ↔
    ∃ remark, said remark ∧ d = rule.finding settings path remark

/-- The parameters of a task's module are sorted. -/
def Playbook.TaskOf.ParamsSorted {α : Type} (t : TaskOf α) : Prop :=
  KeysSorted (t.params.map EntryOf.key)

section Findings

variable {settings : Settings} {report : Report} {path content : String} {playbook : Playbook}
  {rule : Rule} {all said : Remark → Prop} {place : Position}

/-- Where a rule is known to say some remarks in all, those at a place are its findings
there. -/
theorem Report.saysAt_of_all
    (findings : ∀ d, d ∈ report.diagnostics ∧ d.rule = rule.id ↔
      ∃ remark, all remark ∧ d = rule.finding settings path remark)
    (here : ∀ remark, all remark ∧ remark.position = place ↔ said remark) :
    report.SaysAt rule settings path place said := by
  intro d
  constructor
  · rintro ⟨hd, hrule, hplace⟩
    obtain ⟨remark, hremark, rfl⟩ := (findings d).mp ⟨hd, hrule⟩
    exact ⟨remark, (here remark).mp ⟨hremark, hplace⟩, rfl⟩
  · rintro ⟨remark, hremark, rfl⟩
    obtain ⟨hall, hplace⟩ := (here remark).mpr hremark
    obtain ⟨hd, hrule⟩ := (findings _).mpr ⟨remark, hall, rfl⟩
    exact ⟨hd, hrule, hplace⟩

theorem Report.SaysAt.hasAt_iff (h : report.SaysAt rule settings path place said) :
    report.HasAt rule place ↔ ∃ remark, said remark := by
  constructor
  · rintro ⟨d, hd, hrule, hplace⟩
    obtain ⟨remark, hremark, -⟩ := (h d).mp ⟨hd, hrule, hplace⟩
    exact ⟨remark, hremark⟩
  · rintro ⟨remark, hremark⟩
    obtain ⟨hd, hrule, hplace⟩ := (h _).mpr ⟨remark, hremark, rfl⟩
    exact ⟨_, hd, hrule, hplace⟩

/-! ### Plays -/

/-- What is said about some play. -/
def Playbook.SaysOfPlays (playbook : Playbook) (remark : Remark) : Prop :=
  ∃ p ∈ playbook.plays, remark ∈ playOrder.remarks p.fields

theorem mem_hostBlockOrder_iff {remark : Remark} :
    (∃ visit ∈ playbook.visits, hostBlockOrder.kinds.contains visit.part.kind = true ∧
      remark ∈ hostBlockOrder.remarks settings.conventions visit) ↔
        playbook.SaysOfPlays remark := by
  constructor
  · rintro ⟨⟨part, previous?⟩, hvisit, -, hremark⟩
    cases part with
    | play p => exact ⟨p, mem_plays_iff.mpr ⟨_, hvisit, rfl⟩, hremark⟩
    | document | inclusion | task | role | module | entry | scalar => cases hremark
  · rintro ⟨p, hp, hremark⟩
    obtain ⟨⟨_, previous?⟩, hvisit, rfl⟩ := mem_plays_iff.mp hp
    exact ⟨_, hvisit, rfl, hremark⟩

/-- What is said at the place of a field is said about that field. -/
theorem saysOfPlays_at_iff (parsed : Playbook.parse path content = .ok playbook) {p : Play}
    (hp : p ∈ playbook.plays) {before after : List (Playbook.Field PlayFieldKind)}
    {field : Playbook.Field PlayFieldKind} (hsplit : p.fields = before ++ field :: after) {remark : Remark} :
    playbook.SaysOfPlays remark ∧ remark.position = field.position ↔
      playOrder.Says before field remark := by
  have hfield : field ∈ p.fields := hsplit ▸ List.mem_append_right _ List.mem_cons_self
  constructor
  · rintro ⟨⟨other, hother, hremark⟩, hplace⟩
    obtain ⟨before', field', after', hsplit', said⟩ := FieldOrder.mem_remarks_iff.mp hremark
    have hfield' : field' ∈ other.fields := hsplit' ▸ List.mem_append_right _ List.mem_cons_self
    have hsame : field.position = field'.position := hplace.symm.trans said.position
    obtain rfl := eq_of_play_place parsed hp hother (List.mem_map_of_mem hfield)
      (hsame ▸ List.mem_map_of_mem hfield')
    obtain ⟨rfl, rfl⟩ := split_unique (f := Playbook.Field.position)
      (hsplit ▸ play_places_nodup parsed hp) (hsplit.symm.trans hsplit') hsame
    exact said
  · exact fun said => ⟨⟨p, hp, FieldOrder.mem_remarks_iff.mpr ⟨before, field, after, hsplit, said⟩⟩,
      said.position⟩

/-! ### Tasks -/

/-- What is said about the fields of a task and the parameters of its module. -/
def SaysOfTask (t : Task) (remark : Remark) : Prop :=
  remark ∈ taskOrder.remarks t.fields ∨ ∃ call ∈ t.module?, remark ∈ parameterRemarks call

theorem mem_taskFieldOrder_iff {remark : Remark} :
    (∃ visit ∈ playbook.visits, taskFieldOrder.kinds.contains visit.part.kind = true ∧
      remark ∈ taskFieldOrder.remarks settings.conventions visit) ↔
        ∃ t, playbook.Visits t ∧ SaysOfTask t remark := by
  have hremarks : ∀ {previous? : Option Part} {t : Task},
      remark ∈ taskFieldOrder.remarks settings.conventions ⟨.task t, previous?⟩ ↔
        SaysOfTask t remark := by
    intro previous? t
    have hsaid : taskFieldOrder.remarks settings.conventions ⟨.task t, previous?⟩ =
        taskOrderRemarks t ++ t.module?.toList.flatMap parameterRemarks ++ taskOptionRemarks t := rfl
    have hfields : taskOrder.remarks t.fields = taskOrderRemarks t ++ taskOptionRemarks t := rfl
    simp only [SaysOfTask, hsaid, hfields, List.mem_append, List.mem_flatMap, Option.mem_toList]
    exact or_right_comm
  constructor
  · rintro ⟨⟨part, previous?⟩, hvisit, -, hremark⟩
    cases part with
    | task t => exact ⟨t, ⟨_, hvisit, rfl⟩, hremarks.mp hremark⟩
    | document | inclusion | play | role | module | entry | scalar => cases hremark
  · rintro ⟨t, ⟨⟨_, previous?⟩, hvisit, rfl⟩, hremark⟩
    exact ⟨_, hvisit, rfl, hremarks.mpr hremark⟩

section Places

variable {t : Task} {remark : Remark}

/-- A remark on a task is on a field behind some others, or on a parameter. -/
theorem saysOfTask_iff : SaysOfTask t remark ↔
    (∃ before field after, t.fields = before ++ field :: after ∧
      taskOrder.Says before field remark) ∨
    ∃ call ∈ t.module?, ∃ before e after, t.params = before ++ e :: after ∧
      SaysOfParameter call before e remark := by
  refine or_congr FieldOrder.mem_remarks_iff (exists_congr fun call => and_congr_right fun hcall => ?_)
  have hparams : t.params = call.params?.getD [] := by
    rw [TaskOf.params, Option.mem_def.mp hcall]
    rfl
  rw [mem_parameterRemarks_iff, hparams]

/-- The parameters and the fields stand at different places. -/
theorem field_position_ne (nodup : t.places.Nodup) {field : Playbook.Field TaskFieldKind}
    {e : Entry} (hfield : field ∈ t.fields) (he : e ∈ t.params) : field.position ≠ e.position :=
  (List.nodup_append.mp nodup).2.2 _ (List.mem_map_of_mem hfield) _ (List.mem_map_of_mem he)

theorem mem_of_split {α : Type} {list before after : List α} {a : α}
    (hsplit : list = before ++ a :: after) : a ∈ list :=
  hsplit ▸ List.mem_append_right _ List.mem_cons_self

theorem SaysOfTask.mem_places (h : SaysOfTask t remark) : remark.position ∈ t.places := by
  obtain ⟨before, field, after, hsplit, said⟩ | ⟨call, -, before, e, after, hsplit, said⟩ :=
    saysOfTask_iff.mp h
  · exact said.position ▸ List.mem_append_left _ (List.mem_map_of_mem (mem_of_split hsplit))
  · exact said.position ▸ List.mem_append_right _ (List.mem_map_of_mem (mem_of_split hsplit))

/-- What is said at the place of a field is said about that field. -/
theorem saysOfTask_field_iff (nodup : t.places.Nodup)
    {before after : List (Playbook.Field TaskFieldKind)} {field : Playbook.Field TaskFieldKind}
    (hsplit : t.fields = before ++ field :: after) :
    SaysOfTask t remark ∧ remark.position = field.position ↔ taskOrder.Says before field remark := by
  rw [saysOfTask_iff]
  constructor
  · rintro ⟨⟨before', field', after', hsplit', said⟩ | ⟨call, -, before', e, after', hsplit', said⟩,
      hplace⟩
    · obtain ⟨rfl, rfl⟩ := split_unique (f := Playbook.Field.position)
        (hsplit ▸ (List.nodup_append.mp nodup).1) (hsplit.symm.trans hsplit')
        (hplace.symm.trans said.position)
      exact said
    · exact absurd (hplace.symm.trans said.position)
        (field_position_ne nodup (mem_of_split hsplit) (mem_of_split hsplit'))
  · exact fun said => ⟨.inl ⟨before, field, after, hsplit, said⟩, said.position⟩

/-- What is said at the place of a parameter is said about that parameter. -/
theorem saysOfTask_parameter_iff (nodup : t.places.Nodup) {call : ModuleCall}
    (hcall : call ∈ t.module?) {before after : List Entry} {e : Entry}
    (hsplit : t.params = before ++ e :: after) :
    SaysOfTask t remark ∧ remark.position = e.position ↔ SaysOfParameter call before e remark := by
  rw [saysOfTask_iff]
  constructor
  · rintro ⟨⟨before', field, after', hsplit', said⟩ | ⟨call', hcall', before', e', after', hsplit', said⟩,
      hplace⟩
    · exact absurd (said.position.symm.trans hplace)
        (field_position_ne nodup (mem_of_split hsplit') (mem_of_split hsplit))
    · obtain ⟨rfl, rfl⟩ := split_unique (f := EntryOf.position)
        (hsplit ▸ (List.nodup_append.mp nodup).2.1) (hsplit.symm.trans hsplit')
        (hplace.symm.trans said.position)
      obtain rfl := Option.mem_unique hcall hcall'
      exact said
  · exact fun said => ⟨.inr ⟨call, hcall, before, e, after, hsplit, said⟩, said.position⟩

/-- Nothing is said about a task exactly if its order is kept and its parameters are
sorted. -/
theorem forall_not_saysOfTask_iff :
    (∀ remark, ¬SaysOfTask t remark) ↔ taskOrder.Kept t.fields ∧ t.ParamsSorted := by
  have hparams : (∀ remark, ¬∃ call ∈ t.module?, remark ∈ parameterRemarks call) ↔
      t.ParamsSorted := by
    rw [TaskOf.ParamsSorted, TaskOf.params]
    cases t.module? with
    | none => simp [KeysSorted]
    | some call => simp [← parameterRemarks_eq_nil_iff, List.eq_nil_iff_forall_not_mem]
  simp only [SaysOfTask, not_or, forall_and, hparams, ← List.eq_nil_iff_forall_not_mem,
    FieldOrder.remarks_eq_nil_iff]

/-- What is said at a place of a task is said about this task. -/
theorem saysOfTasks_at_iff (parsed : Playbook.parse path content = .ok playbook)
    (ht : t ∈ playbook.tasks) (hplace : place ∈ t.places) :
    (∃ other, playbook.Visits other ∧ SaysOfTask other remark) ∧ remark.position = place ↔
      playbook.Visits t ∧ SaysOfTask t remark ∧ remark.position = place := by
  constructor
  · rintro ⟨⟨other, visits, said⟩, rfl⟩
    obtain rfl := eq_of_place parsed ht visits.mem_tasks hplace said.mem_places
    exact ⟨visits, said, rfl⟩
  · exact fun ⟨visits, said, hposition⟩ => ⟨⟨t, visits, said⟩, hposition⟩

end Places

end Findings

namespace Linter

/-- **Where the rules on the order of keys report.** At each field of a play, a finding
for a field of a kind before the furthest reached, naming the first field of that kind,
and one for an option smaller than the last before it; nothing anywhere in the play
exactly if its kinds never step back and its options are sorted. The same for a task
that the walk comes to, with the parameters of its module; about no other task is
anything said. Where no key comes twice, the walk comes to all. -/
theorem check_order {settings : Settings} {linter : Linter} {path content : String}
    {playbook : Playbook} (accepted : ofSettings settings = .ok linter)
    (parsed : Playbook.parse path content = .ok playbook)
    (plays : settings.Shows hostBlockOrder) (tasks : settings.Shows taskFieldOrder) :
    ∃ report, linter.check path content = .ok report ∧
      (∀ p ∈ playbook.plays,
        (∀ before field after, p.fields = before ++ field :: after →
          report.SaysAt hostBlockOrder settings path field.position (playOrder.Says before field)) ∧
        ((∀ field ∈ p.fields, ¬report.HasAt hostBlockOrder field.position) ↔
          playOrder.Kept p.fields)) ∧
      (∀ t ∈ playbook.tasks,
        (∀ before field after, t.fields = before ++ field :: after →
          report.SaysAt taskFieldOrder settings path field.position fun remark =>
            playbook.Visits t ∧ taskOrder.Says before field remark) ∧
        (∀ call ∈ t.module?, ∀ before e after, call.params? = some (before ++ e :: after) →
          report.SaysAt taskFieldOrder settings path e.position fun remark =>
            playbook.Visits t ∧ SaysOfParameter call before e remark) ∧
        ((∀ place ∈ t.places, ¬report.HasAt taskFieldOrder place) ↔
          (playbook.Visits t → taskOrder.Kept t.fields ∧ t.ParamsSorted))) ∧
      (∀ d ∈ report.diagnostics,
        (d.rule = hostBlockOrder.id →
          ∃ p ∈ playbook.plays, d.position ∈ p.fields.map Playbook.Field.position) ∧
        (d.rule = taskFieldOrder.id →
          ∃ t ∈ playbook.tasks, playbook.Visits t ∧ d.position ∈ t.places)) ∧
      (playbook.DistinctKeys → ∀ t ∈ playbook.tasks, playbook.Visits t) := by
  obtain ⟨report, checked, findings⟩ := exists_check accepted parsed
  have known : ∀ {rule : Rule} {all : Remark → Prop}, rule ∈ Rule.builtin → settings.Shows rule →
      (∀ {remark : Remark}, (∃ visit ∈ playbook.visits,
        rule.kinds.contains visit.part.kind = true ∧
          remark ∈ rule.remarks settings.conventions visit) ↔ all remark) →
      ∀ d, d ∈ report.diagnostics ∧ d.rule = rule.id ↔
        ∃ remark, all remark ∧ d = rule.finding settings path remark := by
    intro rule all builtin shown hall d
    rw [findings rule builtin shown d]
    constructor
    · rintro ⟨visit, hvisit, hkind, remark, hremark, rfl⟩
      exact ⟨remark, hall.mp ⟨visit, hvisit, hkind, hremark⟩, rfl⟩
    · rintro ⟨remark, hremark, rfl⟩
      obtain ⟨visit, hvisit, hkind, hremark⟩ := hall.mpr hremark
      exact ⟨visit, hvisit, hkind, remark, hremark, rfl⟩
  have onPlays := known (by simp [Rule.builtin]) plays mem_hostBlockOrder_iff
  have onTasks := known (by simp [Rule.builtin]) tasks mem_taskFieldOrder_iff
  refine ⟨report, checked, fun p hp => ?_, fun t ht => ?_,
    fun d hd => ⟨fun hrule => ?_, fun hrule => ?_⟩, ?_⟩
  · have hsaid : ∀ before field after, p.fields = before ++ field :: after →
        report.SaysAt hostBlockOrder settings path field.position (playOrder.Says before field) :=
      fun before field after hsplit =>
        Report.saysAt_of_all onPlays fun remark => saysOfPlays_at_iff parsed hp hsplit
    refine ⟨hsaid, ?_⟩
    rw [← FieldOrder.remarks_eq_nil_iff, List.eq_nil_iff_forall_not_mem]
    constructor
    · intro silent remark hremark
      obtain ⟨before, field, after, hsplit, said⟩ := FieldOrder.mem_remarks_iff.mp hremark
      exact silent field (mem_of_split hsplit)
        ((hsaid before field after hsplit).hasAt_iff.mpr ⟨remark, said⟩)
    · intro silent field hfield found
      obtain ⟨before, after, hsplit⟩ := List.append_of_mem hfield
      obtain ⟨remark, said⟩ := (hsaid before field after hsplit).hasAt_iff.mp found
      exact silent remark (FieldOrder.mem_remarks_iff.mpr ⟨before, field, after, hsplit, said⟩)
  · have nodup := places_nodup parsed ht
    have hsaid : ∀ place ∈ t.places, report.SaysAt taskFieldOrder settings path place fun remark =>
        playbook.Visits t ∧ SaysOfTask t remark ∧ remark.position = place :=
      fun place hplace => Report.saysAt_of_all onTasks fun remark =>
        saysOfTasks_at_iff parsed ht hplace
    refine ⟨fun before field after hsplit => ?_, fun call hcall before e after hsplit => ?_, ?_⟩
    · simp only [← saysOfTask_field_iff nodup hsplit]
      exact hsaid _ (List.mem_append_left _ (List.mem_map_of_mem (mem_of_split hsplit)))
    · have hparams : t.params = before ++ e :: after := by
        rw [TaskOf.params, Option.mem_def.mp hcall, Option.bind_some, hsplit, Option.getD_some]
      simp only [← saysOfTask_parameter_iff nodup hcall hparams]
      exact hsaid _ (List.mem_append_right _ (List.mem_map_of_mem (mem_of_split hparams)))
    · rw [← forall_not_saysOfTask_iff]
      constructor
      · intro silent visits remark said
        exact silent _ said.mem_places ((hsaid _ said.mem_places).hasAt_iff.mpr
          ⟨remark, visits, said, rfl⟩)
      · intro silent place hplace found
        obtain ⟨remark, visits, said, -⟩ := (hsaid place hplace).hasAt_iff.mp found
        exact silent visits remark said
  · obtain ⟨remark, ⟨p, hp, hremark⟩, rfl⟩ := (onPlays d).mp ⟨hd, hrule⟩
    obtain ⟨before, field, after, hsplit, said⟩ := FieldOrder.mem_remarks_iff.mp hremark
    exact ⟨p, hp, List.mem_map.mpr ⟨field, mem_of_split hsplit, said.position.symm⟩⟩
  · obtain ⟨remark, ⟨t, visits, said⟩, rfl⟩ := (onTasks d).mp ⟨hd, hrule⟩
    exact ⟨t, visits.mem_tasks, visits, said.mem_places⟩
  · intro distinct t ht
    obtain ⟨value, -, build⟩ := exists_read_of_parse parsed
    exact visits_of_distinct build distinct ht

/-- The keys of the play are in order; in its task the module stands behind an option. -/
theorem check_order_module_last :
    let content := "- hosts: all\n  tasks:\n    - when: a\n      ping:\n"
    ∃ (linter : Linter) (playbook : Playbook) (report : Report),
      ofSettings {} = .ok linter ∧ Playbook.parse "site.yml" content = .ok playbook ∧
      linter.check "site.yml" content = .ok report ∧
      report.diagnostics.map (fun d => (d.rule, d.position)) = [("task-field-order", ⟨4, 7⟩)] ∧
      (∀ p ∈ playbook.plays, playOrder.Kept p.fields) ∧
      ∃ t ∈ playbook.tasks, playbook.Visits t ∧ ¬(taskOrder.Kept t.fields ∧ t.ParamsSorted) := by
  intro content
  let linter : Linter := ⟨{}, .builtin, by decide⟩
  have accepted : ofSettings {} = .ok linter := rfl
  have isParsed : (Playbook.parse "site.yml" content).toOption.isSome = true := by decide +kernel
  cases parsed : Playbook.parse "site.yml" content with
  | error problem =>
    rw [parsed] at isParsed
    cases isParsed
  | ok playbook =>
    obtain ⟨report, checked, plays, tasks, places, -⟩ :=
      check_order accepted parsed ⟨by decide, by decide⟩ ⟨by decide, by decide⟩
    have evaluated : (linter.check "site.yml" content).toOption.map
        (·.diagnostics.map fun d => (d.rule, d.position)) =
          some [("task-field-order", ⟨4, 7⟩)] := by
      decide +kernel
    rw [checked] at evaluated
    have found : report.diagnostics.map (fun d => (d.rule, d.position)) =
        [("task-field-order", ⟨4, 7⟩)] := Option.some.inj evaluated
    have reported : ∀ rule : Rule, ∀ place,
        report.HasAt rule place ↔ (rule.id, place) = ("task-field-order", ⟨4, 7⟩) := by
      intro rule place
      rw [← List.mem_singleton, ← found, Report.HasAt, List.mem_map]
      simp only [Prod.mk.injEq]
    refine ⟨linter, playbook, report, accepted, rfl, checked, found, fun p hp => ?_, ?_⟩
    · have other : hostBlockOrder.id ≠ "task-field-order" := by decide
      refine (plays p hp).2.mp fun field _ hasAt => other ?_
      exact congrArg Prod.fst ((reported hostBlockOrder field.position).mp hasAt)
    · obtain ⟨d, hd, hrule, -⟩ := (reported taskFieldOrder ⟨4, 7⟩).mpr rfl
      obtain ⟨t, ht, visits, hplace⟩ := (places d hd).2 hrule
      exact ⟨t, ht, visits, fun kept =>
        (tasks t ht).2.2.mpr (fun _ => kept) d.position hplace ⟨d, hd, hrule, rfl⟩⟩

end Linter

end PlaybookStyle
