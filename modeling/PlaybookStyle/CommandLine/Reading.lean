/-
Reading arguments one after the other.

The values of an argument are settled only when something else begins, or at the
end: until then the argument is open. So of two problems the later one can be
the one that is reported: an argument that is not known is reported at once.
-/

import PlaybookStyle.CommandLine.Grammar

namespace PlaybookStyle.CommandLine

variable {α : Type}

/-- An argument whose values are not settled. -/
inductive Open (α : Type) where
  /-- An option, with its value if that was read. -/
  | switch (s : Switch α) (value? : Option String)
  /-- Positional arguments, the last one first. -/
  | positional (p : Positional α) (values : List String)

structure Reading (α : Type) where
  value : α
  /-- The arguments that were given: long names, or what is shown for a place. -/
  given : List String := []
  open? : Option (Open α) := none

/-- How an argument is written. -/
inductive Form where
  /-- Two dashes: everything behind them stands alone. -/
  | dashes
  | long (name : String) (value? : Option String)
  | letters (letters : List Char)
  | plain
deriving DecidableEq, Repr

/-- The form of an argument that is no command. -/
def Form.of (argument : String) : Form :=
  match argument.toList with
  | ['-', '-'] => .dashes
  | '-' :: '-' :: rest =>
    match Text.splitAround ['='] rest with
    | some (name, value) => .long (String.ofList name) (some (String.ofList value))
    | none => .long (String.ofList rest) none
  | '-' :: c :: rest => .letters (c :: rest)
  | _ => .plain

namespace Reading

/-! ### Settling -/

/-- Takes a value for an option. -/
def take (r : Reading α) (s : Switch α) (value : String) : Except Stop (Reading α) :=
  match s.action with
  | .value _ repeatable read =>
    if !repeatable && r.given.contains s.long then .error (.problem (.repeated s.shown))
    else
      match read value with
      | .ok change => .ok { r with value := change r.value, given := s.long :: r.given }
      | .error objection => .error (.problem (objection.problem value s.shown))
  | _ => .ok r

/-- Takes a positional argument. -/
def takePlain (r : Reading α) (p : Positional α) (value : String) : Except Stop (Reading α) :=
  match p.read value with
  | .ok change => .ok { r with value := change r.value }
  | .error objection => .error (.problem (objection.problem value p.shown))

/-- The reading with nothing open. -/
def settle (r : Reading α) : Except Stop (Reading α) :=
  match r.open? with
  | none => .ok r
  | some (.switch s none) => .error (.problem (.missingValue s.shown))
  | some (.switch s (some value)) => take { r with open? := none } s value
  | some (.positional p values) => values.reverse.foldlM (takePlain · p) { r with open? := none }

/-- An option waits for its value. -/
def waits (r : Reading α) : Bool :=
  match r.open? with
  | some (.switch _ none) => true
  | _ => false

/-! ### One argument -/

/-- An option without a value is given. -/
def give (r : Reading α) (g : Grammar α) (s : Switch α) : Except Stop (Reading α) := do
  let r ← r.settle
  match s.action with
  | .help => .error (.help g.command?)
  | .version => .error (.version g.command?)
  | .flag change =>
    if r.given.contains s.long then .error (.problem (.repeated s.shown))
    else .ok { r with value := change r.value, given := s.long :: r.given }
  | .count change => .ok { r with value := change r.value, given := s.long :: r.given }
  | .value .. => .ok { r with open? := some (.switch s none) }

/-- Reads an option with its value, if that is written with it. -/
def readSwitch (r : Reading α) (g : Grammar α) (s : Switch α) (value? : Option String) :
    Except Stop (Reading α) :=
  match s.action, value? with
  | .value .., some value => do (← r.settle).take s value
  | _, some value => .error (.problem (.unwantedValue value s.shown))
  | _, none => r.give g s

/-- Reads letters behind one dash. An option with a value takes all that follows. -/
def readLetters (r : Reading α) (g : Grammar α) : List Char → Except Stop (Reading α)
  | [] => .ok r
  | c :: rest =>
    match g.switches.find? (·.letter? = some c) with
    | none => .error (.problem (.unknownArgument ("-" ++ c.toString)))
    | some s =>
      match s.action, rest with
      | .value .., '=' :: value => r.readSwitch g s (some (String.ofList value))
      | .value .., c :: value => r.readSwitch g s (some (String.ofList (c :: value)))
      | _, _ => do readLetters (← r.give g s) g rest

/-- Reads what stands alone, though it is no command and no option's value. -/
def readAlone (r : Reading α) (g : Grammar α) (value : String) : Except Stop (Reading α) :=
  match g.positional? with
  | none =>
    if g.commands.isEmpty then .error (.problem (.unknownArgument value))
    else .error (.problem (.unknownCommand value))
  | some p =>
    match r.open?, p.repeatable with
    | some (.positional _ values), true =>
      .ok { r with open? := some (.positional p (value :: values)) }
    | _, repeatable =>
      if !repeatable && r.given.contains p.shown then .error (.problem (.unknownArgument value))
      else do
        let r ← r.settle
        .ok { r with given := p.shown :: r.given, open? := some (.positional p [value]) }

/-! ### All arguments -/

/-- Reads arguments behind two dashes, where a command is no longer known. -/
def readBehindDashes (r : Reading α) (g : Grammar α) (arguments : List String) :
    Except Stop (Reading α) :=
  arguments.foldlM (fun r argument =>
    if g.positional?.isNone && g.commands.contains argument then
      .error (.problem (.unknownArgument argument))
    else r.readAlone g argument) r

/-- Reads arguments up to a command; gives the command with what follows it. -/
def read (r : Reading α) (g : Grammar α) :
    List String → Except Stop (Reading α × Option (String × List String))
  | [] => .ok (r, none)
  | argument :: rest =>
    if !r.waits && g.commands.contains argument then .ok (r, some (argument, rest))
    else
      match Form.of argument with
      | .dashes => do return (← r.readBehindDashes g rest, none)
      | .long name value? =>
        match g.switches.find? (·.long = name) with
        | some s => do read (← r.readSwitch g s value?) g rest
        | none => .error (.problem (.unknownArgument ("--" ++ name)))
      | .letters letters => do read (← r.readLetters g letters) g rest
      | .plain =>
        match r.open? with
        | some (.switch s none) => read { r with open? := some (.switch s (some argument)) } g rest
        | _ => do read (← r.readAlone g argument) g rest

/-- Looks at the fallback of an option that was not given. -/
def checkFallback (r : Reading α) (g : Grammar α) (long value : String) : Except Stop PUnit :=
  match g.switches.find? (·.long = long) with
  | some s => if r.given.contains long then .ok ⟨⟩ else (r.take s value).map fun _ => ⟨⟩
  | none => .ok ⟨⟩

/-- The reading at the end, with everything settled and nothing missing. -/
def finish (r : Reading α) (g : Grammar α) : Except Stop (Reading α) := do
  let r ← r.settle
  g.fallbacks.forM fun fallback => r.checkFallback g fallback.1 fallback.2
  match g.positional? with
  | some p =>
    if p.required && !r.given.contains p.shown then .error (.problem (.missingArgument p.shown))
    else .ok r
  | none => .ok r

end Reading

/-- Reads all arguments of a command that no other command follows. -/
def Grammar.read (g : Grammar α) (initial : α) (arguments : List String) : Except Stop α := do
  let (r, _) ← Reading.read { value := initial } g arguments
  return (← r.finish g).value

end PlaybookStyle.CommandLine
