/-
Settings: which rules run, how grave their findings are, and which are reported.

A rule runs unless it is skipped, left out of a selection, or of a skipped
category. Its findings have the rule's own severity unless a grade is set for
it. `Grades` keeps the grades in the order in which their rules were first
named; a later grade takes the place of an earlier one.
-/

import PlaybookStyle.Setting.Extensions

namespace PlaybookStyle

/-! ### Grades -/

/-- Severities set for single rules, in order of first mention. -/
abbrev Grades : Type := List (String × Severity)

namespace Grades

def get? (grades : Grades) (rule : String) : Option Severity := grades.lookup rule

/-- Sets a grade: in place if the rule has one, at the end if not. -/
def insert (grades : Grades) (rule : String) (severity : Severity) : Grades :=
  match grades with
  | [] => [(rule, severity)]
  | (other, old) :: rest =>
    if other == rule then (rule, severity) :: rest else (other, old) :: insert rest rule severity

def ofList (pairs : List (String × Severity)) : Grades :=
  pairs.foldl (fun grades pair => grades.insert pair.1 pair.2) []

/-- The grades with those of a later layer set over them. -/
def overlay (grades later : Grades) : Grades :=
  later.foldl (fun grades pair => insert grades pair.1 pair.2) grades

def rules (grades : Grades) : List String := grades.map Prod.fst

@[simp] theorem get?_nil (rule : String) : get? [] rule = none := rfl

theorem get?_insert (grades : Grades) (rule other : String) (severity : Severity) :
    (grades.insert rule severity).get? other =
      if other == rule then some severity else grades.get? other := by
  induction grades with
  | nil =>
    by_cases h : other = rule
    · simp [insert, get?, h]
    · simp [insert, get?, List.lookup_cons, beq_eq_false_iff_ne.2 h]
  | cons pair rest ih =>
    obtain ⟨name, old⟩ := pair
    by_cases h : name = rule
    · subst h
      by_cases ho : other = name
      · simp [insert, get?, ho]
      · simp [insert, get?, List.lookup_cons, beq_eq_false_iff_ne.2 ho]
    · by_cases hn : other = name
      · subst hn
        simp [insert, get?, h]
      · simp only [get?] at ih
        simp [insert, h, get?, List.lookup_cons, ih, beq_eq_false_iff_ne.2 hn]

end Grades

/-! ### Settings -/

/-- The name part that marks a file as encrypted when nothing else is set. -/
def defaultVaultMarkers : List String := ["vault"]

structure Settings where
  /-- Rules that do not run. -/
  skipRules : List String := []
  /-- The only rules that run; all if empty. -/
  onlyRules : List String := []
  skipCategories : List Category := []
  grades : Grades := []
  /-- Findings below this are not reported. -/
  minSeverity : Severity := .info
  extensions : ExtensionPolicy := .ymlOnly
  failOn : FailOn := .error
  /-- The time for one file, in nanoseconds. -/
  timeout? : Option Nat := none
  /-- Paths that no walk descends into. -/
  excludePaths : List String := []
  /-- Parts of a file name that mark the file as encrypted. -/
  vaultMarkers : List String := defaultVaultMarkers
deriving DecidableEq, Repr

namespace Settings

instance : Inhabited Settings := ⟨{}⟩

/-- A rule of this name and category runs. -/
def runs (s : Settings) (rule : String) (category : Category) : Bool :=
  !s.skipRules.contains rule &&
    (s.onlyRules.isEmpty || s.onlyRules.contains rule) &&
    !s.skipCategories.contains category

/-- The severity of a rule's findings. -/
def severityOf (s : Settings) (rule : String) (default : Severity) : Severity :=
  (s.grades.get? rule).getD default

/-- Findings of this severity are reported. -/
def reports (s : Settings) (severity : Severity) : Bool := severity.reaches s.minSeverity

/-- The rules that the settings name, in the order in which they are checked. -/
def namedRules (s : Settings) : List String := s.skipRules ++ s.onlyRules ++ s.grades.rules

end Settings

end PlaybookStyle
