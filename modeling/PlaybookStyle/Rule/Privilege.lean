/-
Privileges are raised with `become`; the older directives are deprecated.
-/

import PlaybookStyle.Rule.Basic

namespace PlaybookStyle.Rule

open Playbook

/-- Deprecated directives with what takes their place. -/
def deprecatedDirectives : List (String × String) :=
  [("sudo", "become"), ("sudo_user", "become_user"), ("sudo_exe", "become_exe"),
    ("sudo_flags", "become_flags"), ("sudo_pass", "become_password"), ("su", "become"),
    ("su_user", "become_user")]

/-- What replaces a directive; those of `su` also name the method. -/
def replacement (old new : String) : String :=
  if Text.startsWith old "sudo" then s!"Replace '{old}' with '{new}'"
  else s!"Replace '{old}' with '{new}' and set 'become_method: su'"

def directiveRemark? (e : Entry) : Option Remark :=
  (deprecatedDirectives.lookup e.key).map fun new =>
    ⟨e.position, s!"'{e.key}' is deprecated, use '{new}' instead", some (replacement e.key new)⟩

def sudoBecome : Rule where
  id := "sudo-become"
  description :=
    "Privilege escalation uses become instead of the deprecated sudo and su directives"
  category := .deprecation
  severity := .error
  kinds := [.play, .task, .role, .inclusion]
  remarks _ visit :=
    match visit.part with
    | .play p => p.entries.filterMap directiveRemark?
    | .task t => t.entries.filterMap directiveRemark?
    | .role r => r.entries.filterMap directiveRemark?
    | .inclusion i => i.entries.filterMap directiveRemark?
    | _ => []

end PlaybookStyle.Rule
