/-
The program: takes in what a session looks at, prints what it says.
-/

import PlaybookStyle.CommandLine.Session

namespace PlaybookStyle

/-! ### Taking in files -/

/-- A file tree that is being filled from the file system. -/
structure Snapshot where
  tree : IO.Ref FileTree
  /-- The directories that are in it with all their entries. -/
  complete : IO.Ref (List String)

namespace Snapshot

def put (s : Snapshot) (path : String) (node : FileTree) : IO Unit :=
  s.tree.modify (·.put node ((Disk.names path).filter (!·.isEmpty)))

/-- A path without links; nothing if it leads nowhere. -/
def realPath? (path : String) : IO (Option String) := do
  match ← (IO.FS.realPath path).toBaseIO with
  | .ok real => return some real.toString
  | .error _ => return none

/-- What stands at a path, links not followed. -/
def kind? (path : String) : IO (Option IO.FS.FileType) := do
  match ← ((← IO.currentDir) / path).symlinkMetadata.toBaseIO with
  | .ok metadata => return some metadata.type
  | .error _ => return none

def putFile (s : Snapshot) (path : String) : IO Unit := do
  match ← (IO.FS.readBinFile path).toBaseIO with
  | .ok bytes => s.put path (.file bytes.toList)
  | .error _ => s.put path (.file [])

/-- Takes in what stands at a path without links. Below a directory only the
content of files with a known extension is read. -/
partial def take (s : Snapshot) (path : String) (given : Bool) : IO Unit := do
  match ← kind? path with
  | some .file =>
    if given || ExtensionPolicy.ymlYaml.accepts path then s.putFile path
    else s.put path (.file [])
  | some .symlink =>
    match ← realPath? path with
    | some real =>
      s.put path (.link real)
      s.take real false
    | none => s.put path (.link "/missing")
  | some .dir =>
    unless (← s.complete.get).contains path do
      s.complete.modify (path :: ·)
      s.put path (.directory [])
      match ← ((← IO.currentDir) / path).readDir.toBaseIO with
      | .ok entries =>
        for entry in entries do
          s.take entry.path.toString false
      | .error _ => return
  | _ => return

/-- Takes in the links on the way from a directory by the names of a path, and then
what the path leads to. -/
partial def reach (s : Snapshot) (directory : String) : List String → IO Unit
  | [] => s.take directory true
  | name :: names => do
    let path := Path.join directory name
    match ← realPath? path with
    | none => if names.isEmpty then s.take path true
    | some real =>
      if (← kind? path) == some .symlink then s.put path (.link real)
      s.reach real names

end Snapshot

/-- The disk as far as some paths lead. -/
def diskInView (paths : List String) : IO Disk := do
  let current := (← IO.currentDir).toString
  let s : Snapshot := ⟨← IO.mkRef (.directory []), ← IO.mkRef []⟩
  s.put current (.directory [])
  for path in paths do
    let start := if Text.startsWith path "/" then "/" else current
    s.reach start ((Disk.names path).filter (!·.isEmpty))
  return ⟨← s.tree.get, current⟩

/-! ### The call -/

/-- The variables that are set, of those that are looked at. -/
def currentEnvironment : IO Environment :=
  Configuration.variableNames.filterMapM fun name => do
    return (← IO.getEnv name).map (name, ·)

end PlaybookStyle

open PlaybookStyle in
def main (arguments : List String) : IO UInt32 := do
  let begun ← IO.monoMsNow
  let environment ← currentEnvironment
  let disk ← diskInView (CommandLine.pathsInView environment arguments)
  let terminal ← (← IO.getStdout).isTty
  let outcome := CommandLine.session ⟨disk, environment, terminal⟩ arguments
  IO.print (Output.joinLines outcome.output)
  let elapsed := (← IO.monoMsNow) - begun
  IO.eprint (Output.joinLines (outcome.messages (Output.elapsedText elapsed)))
  return outcome.code.toUInt32
