/-
Conditions are left alone.

A condition is a part of its own kind, and the rules on quotes and on booleans look at scalars
of the other kind only. No two scalars of a playbook stand at one place, so that a finding
tells the scalar that it is about: it is none under a conditional key.

* `Linter.check_conditions` — the findings on quotes and booleans in an accepted content.
-/

import PlaybookStyle.Proofs.Playbook.Contexts
import PlaybookStyle.Proofs.Rule.Findings

namespace PlaybookStyle

open Playbook

namespace Rule

variable {conventions : Conventions} {visit : Visit} {remark : Remark}

/-- What the rule on quotes says is about a parameter. -/
theorem exists_parameter_of_quoteStyle (h : remark ∈ quoteStyle.remarks conventions visit) :
    ∃ s, visit.part = .scalar s ∧ remark.position = s.position ∧ s.context = .moduleParam := by
  simp only [quoteStyle] at h
  split at h
  · rename_i s part
    split at h
    · rename_i param
      exact ⟨s, part, quoteRemark?_position (Option.mem_toList.mp h), param⟩
    · cases h
  · cases h

theorem exists_scalar_of_booleanLiteral (h : remark ∈ booleanLiteral.remarks conventions visit) :
    ∃ s, visit.part = .scalar s ∧ remark.position = s.position := by
  simp only [booleanLiteral] at h
  split at h
  · rename_i s part
    split at h
    · exact ⟨s, part, booleanRemark?_position (Option.mem_toList.mp h)⟩
    · cases h
  · cases h

/-- Neither rule meets a condition. -/
theorem exists_scalar_of_values {rule : Rule} (values : rule = quoteStyle ∨ rule = booleanLiteral)
    (kind : rule.kinds.contains visit.part.kind = true)
    (h : remark ∈ rule.remarks conventions visit) :
    ∃ s, visit.part = .scalar s ∧ remark.position = s.position ∧ s.context ≠ .condition := by
  obtain ⟨s, part, place⟩ : ∃ s, visit.part = .scalar s ∧ remark.position = s.position := by
    rcases values with rfl | rfl
    · obtain ⟨s, part, place, -⟩ := exists_parameter_of_quoteStyle h
      exact ⟨s, part, place⟩
    · exact exists_scalar_of_booleanLiteral h
  refine ⟨s, part, place, fun condition => ?_⟩
  rw [part, Part.kind, if_pos condition] at kind
  rcases values with rfl | rfl <;> cases kind

end Rule

namespace Linter

open Rule

/-- **Conditions are left alone, and quotes are looked at in parameters only.** Nothing that
the rules on quotes and booleans find in an accepted content is at a scalar under a conditional
key of a play, a task, an include or a role. What the rule on quotes finds is at one scalar of
the playbook, which stands in the mapping or sequence that the module of a task is given. -/
theorem check_conditions {settings : Settings} {linter : Linter} {path content : String}
    {playbook : Playbook} (accepted : ofSettings settings = .ok linter)
    (parsed : Playbook.parse path content = .ok playbook) :
    ∃ report, linter.check path content = .ok report ∧
      (∀ d ∈ report.diagnostics, d.rule = quoteStyle.id ∨ d.rule = booleanLiteral.id →
        ∀ entry ∈ playbook.outerEntries, conditionalKeys.contains entry.key = true →
          ∀ s ∈ entry.value.scalars, d.position ≠ s.position) ∧
      ∀ d ∈ report.diagnostics, d.rule = quoteStyle.id →
        ∃ t ∈ playbook.tasks, ∃ call, t.module? = some call ∧ call.args.isCollection = true ∧
          ∃ s ∈ call.args.scalars, d.position = s.position ∧
            ∀ other ∈ playbook.scalars, d.position = other.position → other = s := by
  obtain ⟨report, checked, said⟩ := exists_check_remark accepted (load_of_parse parsed)
  have apart : ∀ s ∈ playbook.scalars, ∀ s' ∈ playbook.scalars, s.position = s'.position → s = s' :=
    fun s hs s' hs' => List.inj_on_of_nodup_map (scalars_nodup parsed) hs hs'
  refine ⟨report, checked, fun d hd values entry hentry key s hs same => ?_, fun d hd quotes => ?_⟩
  · obtain ⟨visit, hvisit, rule, hrule, kind, remark, hremark, rfl⟩ := said d hd
    obtain ⟨found, part, place, free⟩ :=
      exists_scalar_of_values (values.imp (eq_of_id hrule (by simp [builtin]))
        (eq_of_id hrule (by simp [builtin]))) kind hremark
    obtain rfl := apart found (mem_scalars_of_mem_visits hvisit part) s
      (mem_scalars_of_mem_outerEntries hentry hs) (place.symm.trans same)
    exact free ((keepsContext_of_mem_outerEntries parsed hentry).condition key found hs)
  · obtain ⟨visit, hvisit, rule, hrule, -, remark, hremark, rfl⟩ := said d hd
    obtain rfl := eq_of_id hrule (by simp [builtin]) quotes
    obtain ⟨s, part, place, param⟩ := exists_parameter_of_quoteStyle hremark
    have hs := mem_scalars_of_mem_visits hvisit part
    obtain ⟨t, ht, call, module, collection, hargs⟩ := exists_call_of_moduleParam parsed hs param
    exact ⟨t, ht, call, module, collection, s, hargs, place,
      fun other hother same => apart other hother s hs (same.symm.trans place)⟩

/-- A task with a condition in quotes: the only finding is at the parameter. -/
theorem check_conditions_when :
    let content := "- hosts: all\n  tasks:\n    - debug:\n        msg: hello\n      when: 'yes'\n"
    ∃ (linter : Linter) (playbook : Playbook) (report : Report),
      ofSettings {} = .ok linter ∧ Playbook.parse "site.yml" content = .ok playbook ∧
      linter.check "site.yml" content = .ok report ∧
      report.diagnostics.map (fun d => (d.rule, d.position)) = [(quoteStyle.id, ⟨4, 14⟩)] ∧
      (∃ entry ∈ playbook.outerEntries, entry.key = "when" ∧ ∃ s ∈ entry.value.scalars,
        s.text = "yes" ∧ ∀ d ∈ report.diagnostics, d.position ≠ s.position) ∧
      ∃ t ∈ playbook.tasks, ∃ call, t.module? = some call ∧ call.args.isCollection = true ∧
        ∃ s ∈ call.args.scalars, s.position = ⟨4, 14⟩ := by
  intro content
  let linter : Linter := ⟨{}, .builtin, by decide⟩
  have accepted : ofSettings {} = .ok linter := rfl
  have viewed : (Playbook.parse "site.yml" content).toOption.any (fun playbook =>
      playbook.outerEntries.any fun entry => entry.key == "when" &&
        entry.value.scalar?.any (·.text == "yes")) = true := by decide +kernel
  have evaluated : (linter.check "site.yml" content).toOption.map
      (·.diagnostics.map fun d => (d.rule, d.position)) = some [(quoteStyle.id, ⟨4, 14⟩)] := by
    decide +kernel
  cases parsed : Playbook.parse "site.yml" content with
  | error problem =>
    rw [parsed] at viewed
    cases viewed
  | ok playbook =>
    rw [parsed] at viewed
    obtain ⟨entry, hentry, found⟩ := List.any_eq_true.mp viewed
    obtain ⟨hkey, hscalar⟩ := Bool.and_eq_true_iff.mp found
    obtain ⟨s, hvalue, htext⟩ := (Option.any_eq_true _ _).mp hscalar
    have hs : s ∈ entry.value.scalars := by
      cases hcase : entry.value with
      | scalar found =>
        rw [hcase] at hvalue
        obtain rfl := Option.some.inj hvalue
        simp
      | _ =>
        rw [hcase] at hvalue
        cases hvalue
    have hkey : entry.key = "when" := beq_iff_eq.mp hkey
    obtain ⟨report, checked, free, quotes⟩ := check_conditions accepted parsed
    rw [checked] at evaluated
    have findings := Option.some.inj evaluated
    obtain ⟨d, hreport, hd⟩ := List.map_eq_singleton_iff.mp findings
    obtain ⟨hrule, hplace⟩ := Prod.mk.inj hd
    have hmem : d ∈ report.diagnostics := hreport ▸ List.mem_singleton_self d
    refine ⟨linter, playbook, report, accepted, rfl, checked, findings,
      ⟨entry, hentry, hkey, s, hs, beq_iff_eq.mp htext, fun d' hd' => ?_⟩, ?_⟩
    · obtain rfl := List.mem_singleton.mp (hreport ▸ hd')
      exact free _ hmem (.inl hrule) entry hentry (by rw [hkey]; decide) s hs
    · obtain ⟨t, ht, call, module, collection, s, hs, place, -⟩ := quotes d hmem hrule
      exact ⟨t, ht, call, module, collection, s, hs, place.symm.trans hplace⟩

end Linter

end PlaybookStyle
