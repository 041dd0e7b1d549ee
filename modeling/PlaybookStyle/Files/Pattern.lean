/-
Patterns for paths.

A pattern is read name by name between separators. `*` stands for any part of a
name, `?` for one character, brackets for one of a set of characters, and `**`
as a whole name for any number of directories on the way. `Pattern.paths` gives
what a pattern leads to, in ascending order of names, a directory before what is
in it.
-/

import PlaybookStyle.Files.Tree

namespace PlaybookStyle.Files

/-- What one place in a name may hold. -/
inductive Wildcard where
  | only (c : Char)
  | anyone
  | anything
  /-- A character from one of the ranges, or from none of them. -/
  | among (ranges : List (Char × Char)) (negated : Bool)
deriving DecidableEq, Repr

namespace Wildcard

/-- The character may stand where the wildcard does. -/
def admits : Wildcard → Char → Bool
  | only c, d => c = d
  | anyone, _ | anything, _ => true
  | among ranges negated, d =>
    (ranges.any fun range => range.1 ≤ d && d ≤ range.2) != negated

/-- The name is what the wildcards stand for. -/
def match? : List Wildcard → List Char → Bool
  | [], name => name.isEmpty
  | anything :: rest, [] => match? rest []
  | _ :: _, [] => false
  | anything :: rest, c :: name => match? rest (c :: name) || match? (anything :: rest) name
  | wildcard :: rest, c :: name => wildcard.admits c && match? rest name
termination_by wildcards name => (wildcards.length, name.length)

end Wildcard

/-- One name of a pattern. -/
inductive Step where
  | named (name : String)
  | wild (wildcards : List Wildcard)
  /-- Any number of directories. -/
  | down
deriving DecidableEq, Repr

/-- The step leads to an entry of this name. -/
def Step.leadsTo : Step → String → Bool
  | named name, entry => name = entry
  | wild wildcards, entry => Wildcard.match? wildcards entry.toList
  | down, _ => false

structure Pattern where
  rooted : Bool
  steps : List Step
  /-- Only directories are wanted. -/
  directories : Bool
deriving DecidableEq, Repr

namespace Pattern

/-! ### Reading -/

/-- Why a text is no pattern. Positions count characters. -/
inductive Problem where
  | wildcards (position : Nat)
  | recursion (position : Nat)
  | range (position : Nat)
deriving DecidableEq, Repr

def Problem.message : Problem → String
  | wildcards position =>
    text position "wildcards are either regular \x60*\x60 or recursive \x60**\x60"
  | recursion position => text position "recursive wildcards must form a single path component"
  | range position => text position "invalid range pattern"
where
  text (position : Nat) (reason : String) : String :=
    s!"Pattern syntax error near position {position}: {reason}"

/-- The ranges that the inside of brackets lists. -/
def ranges : List Char → List (Char × Char)
  | first :: '-' :: last :: rest => (first, last) :: ranges rest
  | c :: rest => (c, c) :: ranges rest
  | [] => []

/-- What follows an opening bracket: the set and the rest behind the closing one.
The first character of a set is never its end. -/
def set? : List Char → Option (Wildcard × List Char)
  | '!' :: first :: rest => close first rest true
  | '!' :: [] => none
  | first :: rest => close first rest false
  | [] => none
where
  close (first : Char) (rest : List Char) (negated : Bool) : Option (Wildcard × List Char) :=
    let inside := rest.takeWhile (· != ']')
    match rest.drop inside.length with
    | _ :: behind => some (.among (ranges (first :: inside)) negated, behind)
    | [] => none

/-- What is left behind a bracket is shorter. -/
theorem length_set? {text : List Char} {w : Wildcard} {rest : List Char}
    (h : set? text = some (w, rest)) : rest.length < text.length := by
  have close {first : Char} {tail : List Char} {negated : Bool}
      (h : set?.close first tail negated = some (w, rest)) : rest.length < tail.length := by
    simp only [set?.close] at h
    split at h
    · next c behind eq =>
      have := congrArg List.length eq
      simp only [Option.some.injEq, Prod.mk.injEq] at h
      simp only [List.length_drop, List.length_cons, h.2] at this
      omega
    · simp at h
  unfold set? at h
  split at h
  · have := close h
    simp only [List.length_cons]
    omega
  · simp at h
  · have := close h
    simp only [List.length_cons]
    omega
  · simp at h

/-- A part of a pattern: a place in a name, or `**`. -/
inductive Part where
  | wildcard (w : Wildcard)
  | down
deriving DecidableEq, Repr

/-- The parts of a text; `before?` is the character in front of it. -/
def parts (before? : Option Char) (position : Nat) (text : List Char) :
    Except Problem (List Part) :=
  match text with
  | [] => .ok []
  | '?' :: rest => do
    return .wildcard .anyone :: (← parts (some '?') (position + 1) rest)
  | '*' :: rest =>
    let more := rest.takeWhile (· == '*')
    let behind := rest.drop more.length
    match more with
    | [] => do return .wildcard .anything :: (← parts (some '*') (position + 1) rest)
    | [_] =>
      if before? = none ∨ before? = some '/' then
        match _ : behind with
        | [] => .ok [.down]
        | '/' :: after => do return .down :: (← parts (some '/') (position + 3) after)
        | _ => .error (.recursion (position + 2))
      else .error (.recursion (position - 1))
    | _ => .error (.wildcards (position + 2))
  | '[' :: rest =>
    match _ : set? rest with
    | some (set, behind) => do
      let length := rest.length - behind.length
      return .wildcard set :: (← parts (some ']') (position + 1 + length) behind)
    | none => .error (.range position)
  | c :: rest => do return .wildcard (.only c) :: (← parts (some c) (position + 1) rest)
termination_by text.length
decreasing_by
  all_goals simp_wf
  · have : behind.length ≤ rest.length := by simp [behind]
    have : after.length < behind.length := by simp_all
    omega
  · have := length_set? (by assumption)
    omega

/-- The step that the parts of one name make. -/
def stepOf (parts : List Part) : Step :=
  let wildcards := parts.filterMap fun
    | .wildcard w => some w
    | .down => none
  if parts.contains .down then .down
  else
    match wildcards.mapM fun | .only c => some c | _ => none with
    | some name => .named (String.ofList name)
    | none => .wild wildcards

/-- Repeated `**` are one. -/
def collapse : List Step → List Step
  | .down :: .down :: rest => collapse (.down :: rest)
  | step :: rest => step :: collapse rest
  | [] => []
termination_by steps => steps.length

/-- The names of a text between separators; a separator at its end closes the last. -/
def names (text : List Char) : List (List Char) :=
  let names := Text.pieces '/' text
  if names.getLast? = some [] then names.dropLast else names

/-- The pattern that a text writes. It has to be one as a whole and name by name. -/
def parse (text : String) : Except Problem Pattern := do
  let chars := text.toList
  let _ ← parts none 0 chars
  let rooted := chars.head? = some '/'
  let steps ← (names (if rooted then chars.drop 1 else chars)).mapM fun name =>
    stepOf <$> parts none 0 name
  return ⟨rooted, collapse steps, chars.getLast? = some '/'⟩

/-! ### Where a pattern leads -/

/-- The path of an entry; a name in the current directory is a path by itself. -/
def entryPath (directory name : String) : String :=
  if Path.same directory "." then name else Path.join directory name

/-- The paths of a directory's entries, with their names, in order. -/
def children (disk : Disk) (directory : String) : List (String × String) :=
  let entries := (disk.entries? directory).getD []
  let names := (entries.map Prod.fst).mergeSort fun a b => a ≤ b
  names.map fun name => (entryPath directory name, name)

/-- All entries below a directory to a depth, links to directories followed. -/
def descendants (disk : Disk) (depth : Nat) (directory : String) : List (String × String) :=
  match depth with
  | 0 => []
  | depth + 1 => (children disk directory).flatMap fun entry =>
    entry :: descendants disk depth entry.1

/-- No path has more names than this. -/
def maximalDepth : Nat := (Disk.maximalPath + 1) / 2

/-- A name leads on from a path, if there is something. Dots lead on from
directories only. -/
def named (disk : Disk) (path name : String) : List String :=
  let next := entryPath path name
  let found := if name = "." ∨ name = ".." then disk.isDirectory path
    else disk.exists? next || disk.occupied next
  if found then [next] else []

/-- The dots that wildcards with a dot in front lead to. -/
def dots (disk : Disk) (path : String) (wildcards : List Wildcard) : List String :=
  if wildcards.head? = some (.only '.') && disk.isDirectory path then
    (["..", "."].filter fun dots => Wildcard.match? wildcards dots.toList).map (Path.join path)
  else []

/-- The paths that steps lead to from a path. -/
def follow (disk : Disk) : List Step → String → List String
  | [], path => [path]
  | .named name :: rest, path => (named disk path name).flatMap (follow disk rest)
  | .wild wildcards :: rest, path =>
    let entries := (children disk path).filter fun entry => (Step.wild wildcards).leadsTo entry.2
    (dots disk path wildcards ++ entries.map Prod.fst).flatMap (follow disk rest)
  | [.down], path =>
    ((descendants disk maximalDepth path).map Prod.fst).filter disk.isDirectory
  | .down :: step :: rest, path =>
    let entries := (descendants disk maximalDepth path).filter fun entry => step.leadsTo entry.2
    (entries.map Prod.fst).flatMap (follow disk rest)

/-- The paths on a disk that a pattern leads to. -/
def paths (pattern : Pattern) (disk : Disk) : List String :=
  let found := follow disk pattern.steps (if pattern.rooted then "/" else ".")
  if pattern.directories then found.filter disk.isDirectory else found

end Pattern

end PlaybookStyle.Files
