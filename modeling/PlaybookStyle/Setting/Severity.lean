/-
Severities, what they fail, and rule categories.

A severity is read from a word in any case with blanks around it; what cannot be
read is an `UnknownWord`, which remembers the word as it was compared.
-/

import PlaybookStyle.Text.Search

namespace PlaybookStyle

open Text

/-- A word that names no level, policy or threshold. -/
inductive UnknownWord where
  | severity (word : String)
  | extensions (word : String)
  | failOn (word : String)
deriving DecidableEq, Repr

def UnknownWord.message : UnknownWord → String
  | severity word => s!"unknown severity '{word}' (expected info, warning or error)"
  | extensions word => s!"unknown extension policy '{word}' (expected yml-only or yml+yaml)"
  | failOn word => s!"unknown fail-on level '{word}' (expected error, warning or none)"

/-! ### Severities -/

/-- How grave a finding is. -/
inductive Severity where
  | info
  | warning
  | error
deriving DecidableEq, Repr, Inhabited

namespace Severity

def name : Severity → String
  | info => "info"
  | warning => "warning"
  | error => "error"

def rank : Severity → Nat
  | info => 0
  | warning => 1
  | error => 2

/-- At least as grave as a threshold. -/
def reaches (s threshold : Severity) : Bool := threshold.rank ≤ s.rank

/-- The severity with exactly this name. -/
def ofName? : String → Option Severity
  | "info" => some info
  | "warning" => some warning
  | "error" => some error
  | _ => none

@[simp] theorem ofName?_name (s : Severity) : ofName? s.name = some s := by
  cases s <;> rfl

/-- The severity that a word names. -/
def parse (text : String) : Except UnknownWord Severity :=
  match lower (trimmed text) with
  | "info" | "hint" => .ok info
  | "warning" | "warn" => .ok warning
  | "error" => .ok error
  | word => .error (.severity word)

end Severity

/-! ### Thresholds -/

/-- The least severity that makes a run fail. -/
inductive FailOn where
  | error
  | warning
  | never
deriving DecidableEq, Repr, Inhabited

namespace FailOn

def name : FailOn → String
  | error => "error"
  | warning => "warning"
  | never => "none"

def ofName? : String → Option FailOn
  | "error" => some error
  | "warning" => some warning
  | "none" => some never
  | _ => none

@[simp] theorem ofName?_name (f : FailOn) : ofName? f.name = some f := by
  cases f <;> rfl

/-- A finding of this severity fails the run. -/
def fails (f : FailOn) (s : Severity) : Bool :=
  match f with
  | error => s.reaches .error
  | warning => s.reaches .warning
  | never => false

def parse (text : String) : Except UnknownWord FailOn :=
  let word := lower (trimmed text)
  match ofName? word with
  | some f => .ok f
  | none => .error (.failOn word)

end FailOn

/-! ### Categories -/

/-- What kind of convention a rule looks after. -/
inductive Category where
  | syntaxCheck
  | quoting
  | spacing
  | ordering
  | naming
  | deprecation
deriving DecidableEq, Repr, Inhabited

namespace Category

def name : Category → String
  | syntaxCheck => "syntax"
  | quoting => "quoting"
  | spacing => "spacing"
  | ordering => "ordering"
  | naming => "naming"
  | deprecation => "deprecation"

def all : List Category := [syntaxCheck, quoting, spacing, ordering, naming, deprecation]

def ofName? (text : String) : Option Category := all.find? (·.name == text)

@[simp] theorem ofName?_name (c : Category) : ofName? c.name = some c := by
  cases c <;> decide

end Category

end PlaybookStyle
