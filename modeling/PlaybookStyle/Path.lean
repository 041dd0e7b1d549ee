/-
File paths: texts read as sequences of components.

Repeated separators and inner dots mean nothing, so two texts can be the same
path. Order and equality are those of the component lists; `fileName?`,
`extension?` and `withExtension` look at the last component only.
-/

import PlaybookStyle.Text.Search

namespace PlaybookStyle.Path

open Text

/-- One part of a path. -/
inductive Component where
  | root
  | current
  | parent
  | normal (name : String)
deriving DecidableEq, Repr

/-- The root comes first, then the two dots, then names in code point order. -/
def Component.compare : Component → Component → Ordering
  | root, root => .eq
  | root, _ => .lt
  | _, root => .gt
  | current, current => .eq
  | current, _ => .lt
  | _, current => .gt
  | parent, parent => .eq
  | parent, _ => .lt
  | _, parent => .gt
  | normal a, normal b => Ord.compare a b

def Component.ofName (name : List Char) : Component :=
  if name = ['.', '.'] then .parent else .normal (String.ofList name)

/-- The components of a path. A dot counts only where the path starts with it. -/
def components (path : String) : List Component :=
  let names := pieces '/' path.toList
  let significant (names : List (List Char)) : List Component :=
    (names.filter fun name => !name.isEmpty && name != ['.']).map Component.ofName
  match names with
  | [] => []
  | first :: rest =>
    if first.isEmpty then (if rest.isEmpty then [] else [.root]) ++ significant rest
    else if first = ['.'] then .current :: significant rest
    else significant names

/-- Order of component lists: the first difference decides, a shorter one comes first. -/
def compareComponents : List Component → List Component → Ordering
  | [], [] => .eq
  | [], _ => .lt
  | _, [] => .gt
  | a :: as, b :: bs => (a.compare b).then (compareComponents as bs)

def compare (a b : String) : Ordering := compareComponents (components a) (components b)

/-- The two texts are one path. -/
def same (a b : String) : Bool := components a == components b

/-- The last component, unless it is the root or a dot. -/
def fileName? (path : String) : Option String :=
  match (components path).getLast? with
  | some (.normal name) => some name
  | _ => none

/-- A file name cut at its last dot; a dot at its start does not count. -/
def splitName (name : String) : String × Option String :=
  let reversed := name.toList.reverse
  let ending := reversed.takeWhile (· != '.')
  match reversed.drop ending.length with
  | '.' :: (c :: stem) => (String.ofList (c :: stem).reverse, some (String.ofList ending.reverse))
  | _ => (name, none)

/-- The part of the file name behind its last dot. -/
def extension? (path : String) : Option String := (fileName? path).bind fun name => (splitName name).2

/-- A path, last character first, without trailing separators and dots. -/
def dropTrailing : List Char → List Char
  | '/' :: rest => dropTrailing rest
  | '.' :: '/' :: rest => dropTrailing ('/' :: rest)
  | path => path

/-- The path with an extension put behind its file stem. -/
def setExtension (path extension : String) : String :=
  match fileName? path with
  | none => path
  | some name =>
    let stem := (splitName name).1
    let shown := dropTrailing path.toList.reverse
    let kept := shown.drop (name.toList.length - stem.toList.length)
    String.ofList kept.reverse ++ "." ++ extension

/-- The path with another extension in place of its own. -/
def withExtension (path extension : String) : String :=
  match extension? path with
  | none => setExtension path extension
  | some old => setExtension (String.ofList (path.toList.take (path.toList.length - old.toList.length))) extension

/-- The path of a name inside a directory; a rooted name stands for itself. -/
def join (directory name : String) : String :=
  if startsWith name "/" || directory.isEmpty then name
  else if directory.toList.getLast? = some '/' then directory ++ name
  else directory ++ "/" ++ name

end PlaybookStyle.Path
