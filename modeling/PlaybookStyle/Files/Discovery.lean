/-
Which files a list of inputs names.

An input with wildcards is a pattern. A directory, given or matched, stands for
the regular files below it that have an accepted extension and are not excluded;
nothing hidden below it is looked at. Other matches have to meet the same two
conditions. An input without wildcards that is no directory stands for itself,
whatever it is.
-/

import PlaybookStyle.Files.Exclusion.Expression
import PlaybookStyle.Files.Pattern
import PlaybookStyle.Finding.Failure
import PlaybookStyle.Path.Sorted
import PlaybookStyle.Setting.Basic

namespace PlaybookStyle

/-- A name with a dot in front, other than the two dots for directories. -/
def Files.isHidden (name : String) : Bool :=
  Text.startsWith name "." && name != "." && name != ".."

mutual

/-- The regular files of a tree that stands at a path; links are not followed and
hidden entries are left out. -/
def FileTree.files (path : String) : FileTree → List String
  | .file _ => [path]
  | .link _ => []
  | .directory entries => FileTree.filesOf path entries

/-- The regular files among the entries of a directory and below them. -/
def FileTree.filesOf (directory : String) : List (String × FileTree) → List String
  | [] => []
  | (name, node) :: rest =>
    (if Files.isHidden name then [] else node.files (Path.join directory name)) ++
      filesOf directory rest

end

namespace Files

structure Discovery where
  exclusions : List Exclusion
  extensions : ExtensionPolicy
deriving Repr, Inhabited

namespace Discovery

/-- The exclusions that texts write; refused for the first that is none. -/
def exclusionsOf (texts : List String) : Except Failure (List Exclusion) :=
  texts.mapM fun text => (Exclusion.parse text).mapError fun problem =>
    .badSetting s!"invalid exclude pattern '{text}': error parsing glob '{text}': {problem.message}"

/-- The discovery that settings ask for; its exclusions have to be comparable. -/
def ofSettings (settings : Settings) : Except Failure Discovery := do
  let exclusions ← exclusionsOf settings.excludePaths
  match Exclusion.overdepth? exclusions with
  | some problem => throw (.badSetting s!"invalid exclude patterns: {problem.message}")
  | none => return ⟨exclusions, settings.extensions⟩

/-- The path as it is, and without the dot it may start with. -/
def spellings (path : String) : List String :=
  match path.toList with
  | '.' :: '/' :: rest => [String.ofList (dropDots rest), path]
  | _ => [path]
where
  /-- The rest of a path without separators and dots at its start. -/
  dropDots : List Char → List Char
    | '/' :: rest => dropDots rest
    | '.' :: '/' :: rest => dropDots rest
    | rest => rest

/-- An exclusion holds for a path. -/
def excludes (d : Discovery) (path : String) : Bool :=
  (spellings path).any fun spelling => d.exclusions.any (·.excludes spelling)

/-- A path has an accepted extension and is not excluded. -/
def accepts (d : Discovery) (path : String) : Bool :=
  d.extensions.accepts path && !d.excludes path

/-- The accepted files below a directory. -/
def below (d : Discovery) (disk : Disk) (directory : String) : List String :=
  (FileTree.filesOf directory ((disk.entries? directory).getD [])).filter d.accepts

/-- The input has a character that stands for others. -/
def isPattern (input : String) : Bool :=
  input.toList.any fun c => c == '*' || c == '?' || c == '['

/-- The path in front of the first name with wildcards. -/
def base (input : String) : String :=
  if isPattern input then
    let names := (Text.pieces '/' input.toList).map String.ofList
    let plain := names.takeWhile (!isPattern ·)
    if plain.isEmpty then "." else "/".intercalate plain ++ "/"
  else input

/-- The files that a match of a pattern stands for. -/
def filesOfMatch (d : Discovery) (disk : Disk) (path : String) : List String :=
  if disk.isDirectory path then d.below disk path
  else if d.accepts path then [path]
  else []

/-- The files that an input stands for. -/
def filesOfInput (d : Discovery) (disk : Disk) (input : String) :
    Except Failure (List String) :=
  if isPattern input then
    match Pattern.parse input with
    | .ok pattern => .ok ((pattern.paths disk).flatMap (d.filesOfMatch disk))
    | .error problem => .error (.badSetting s!"invalid pattern '{input}': {problem.message}")
  else .ok (if disk.isDirectory input then d.below disk input else [input])

/-- The files that inputs stand for, in ascending order, each once. -/
def files (d : Discovery) (disk : Disk) (inputs : List String) : Except Failure (List String) := do
  return Path.sorted (← inputs.mapM (d.filesOfInput disk)).flatten

end Discovery

end Files

end PlaybookStyle
