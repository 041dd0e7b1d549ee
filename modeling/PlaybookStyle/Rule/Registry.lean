/-
Registries: rules in the order in which they were registered, each name once.
-/

import PlaybookStyle.Finding.Failure
import PlaybookStyle.Rule.Builtin
import PlaybookStyle.Text.Quoted

namespace PlaybookStyle

open Playbook

structure Registry where
  rules : List Rule
  /-- No two rules have one name. -/
  distinct : (rules.map Rule.id).Nodup

namespace Registry

def empty : Registry := ⟨[], List.nodup_nil⟩

/-- The names of the rules. -/
def ids (r : Registry) : List String := r.rules.map Rule.id

def contains (r : Registry) (id : String) : Bool := r.ids.contains id

def get? (r : Registry) (id : String) : Option Rule := r.rules.find? (·.id == id)

/-- Adds a rule at the end, unless its name is taken. -/
def register (r : Registry) (rule : Rule) : Except Failure Registry :=
  if h : rule.id ∈ r.rules.map Rule.id then .error (.duplicateRule rule.id)
  else
    .ok ⟨r.rules ++ [rule], by
      rw [List.map_append, List.nodup_append]
      refine ⟨r.distinct, by simp, fun a ha b hb => ?_⟩
      rintro rfl
      simp only [List.map_cons, List.map_nil, List.mem_singleton] at hb
      exact h (hb ▸ ha)⟩

/-- The rules that look at parts of a kind. -/
def rulesFor (r : Registry) (kind : PartKind) : List Rule :=
  r.rules.filter (·.kinds.contains kind)

/-- The registry of the built-in rules. -/
def builtin : Registry := ⟨Rule.builtin, by decide⟩

/-- The names of the rules, listed for a developer. -/
def describe (r : Registry) : String :=
  "RuleRegistry \x7b rules: [" ++ ", ".intercalate (r.ids.map Text.quoted) ++ "] \x7d"

end Registry

end PlaybookStyle
