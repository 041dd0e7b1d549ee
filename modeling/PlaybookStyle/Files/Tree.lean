/-
File trees and the way from a path to a file.

A tree holds files, directories and symbolic links. `Disk.resolve` goes from
directory to directory as a path says and follows links on its way, though only
a limited number of them, so that links in a circle come to an end.
-/

import PlaybookStyle.Path

namespace PlaybookStyle

inductive FileTree where
  | file (content : List UInt8)
  | link (target : String)
  | directory (entries : List (String × FileTree))
deriving Repr, Inhabited

/-- Entries with a node under a name; `change` makes it from the one that was there. -/
def FileTree.setEntry (entries : List (String × FileTree)) (name : String)
    (change : Option FileTree → FileTree) : List (String × FileTree) :=
  match entries with
  | [] => [(name, change none)]
  | (other, node) :: rest =>
    if other = name then (name, change (some node)) :: rest
    else (other, node) :: setEntry rest name change

/-- The tree with a node put where the names lead, through directories that are
made if need be. A directory that is there already stays. -/
def FileTree.put (tree : FileTree) (node : FileTree) : List String → FileTree
  | [] =>
    match tree, node with
    | .directory entries, .directory [] => .directory entries
    | _, _ => node
  | name :: names =>
    let entries := match tree with
      | .directory entries => entries
      | _ => []
    .directory (setEntry entries name fun old? => put (old?.getD (.directory [])) node names)

namespace Files

/-- Why a path leads nowhere, or to nothing that can be read as text. -/
inductive Fault where
  | missing
  | notDirectory
  | isDirectory
  | nameTooLong
  | tooManyLinks
  | zeroByte
  | notText
deriving DecidableEq, Repr

def Fault.message : Fault → String
  | missing => "No such file or directory (os error 2)"
  | notDirectory => "Not a directory (os error 20)"
  | isDirectory => "Is a directory (os error 21)"
  | nameTooLong => "File name too long (os error 36)"
  | tooManyLinks => "Too many levels of symbolic links (os error 40)"
  | zeroByte => "file name contained an unexpected NUL byte"
  | notText => "stream did not contain valid UTF-8"

end Files

open Files

/-- A file tree with the directory in which paths begin, named from the root. -/
structure Disk where
  root : FileTree
  current : String
deriving Repr, Inhabited

namespace Disk

/-- The most links on one way. -/
def maximalLinks : Nat := 40

/-- The most bytes of a file name. -/
def maximalName : Nat := 255

/-- The most bytes of a path. -/
def maximalPath : Nat := 4095

/-- The names of a path between separators; some may be empty. -/
def names (path : String) : List String := (Text.pieces '/' path.toList).map String.ofList

/-- A node with the directories around it, the nearest first. -/
structure Place where
  node : FileTree
  above : List FileTree

/-- The directory around a place; the root is its own. -/
def Place.parent (p : Place) : Place :=
  match p.above with
  | [] => p
  | node :: above => ⟨node, above⟩

/-- Goes on from a place by the names of a path. A link stands for the names of
its target; the last one is followed only if `last` says so. -/
def go (root : FileTree) (last : Bool) (links : Nat) (place : Place) :
    List String → Except Fault Place
  | [] => .ok place
  | name :: rest =>
    match place.node with
    | .directory entries =>
      if name = "" ∨ name = "." then go root last links place rest
      else if name = ".." then go root last links place.parent rest
      else if name.utf8ByteSize > maximalName then .error .nameTooLong
      else
        match entries.lookup name with
        | none => .error .missing
        | some (.link target) =>
          if rest = [] ∧ last = false then .ok ⟨.link target, place.node :: place.above⟩
          else
            match links with
            | 0 => .error .tooManyLinks
            | links + 1 =>
              let start := if Text.startsWith target "/" then ⟨root, []⟩ else place
              go root last links start (names target ++ rest)
        | some node => go root last links ⟨node, place.node :: place.above⟩ rest
    | _ => .error .notDirectory
termination_by names => (links, names.length)

/-- The place that a path leads to; the last link is followed if `last` says so. -/
def resolve (disk : Disk) (path : String) (last : Bool) : Except Fault Place :=
  if path.isEmpty then .error .missing
  else if path.toList.contains '\x00' then .error .zeroByte
  else if path.utf8ByteSize > maximalPath then .error .nameTooLong
  else
    let way := if Text.startsWith path "/" then names path else names disk.current ++ names path
    go disk.root last maximalLinks ⟨disk.root, []⟩ way

/-- Something that is no broken link stands at a path. -/
def exists? (disk : Disk) (path : String) : Bool := (disk.resolve path true).toOption.isSome

/-- Something stands at a path, if only a broken link. -/
def occupied (disk : Disk) (path : String) : Bool := (disk.resolve path false).toOption.isSome

/-- The entries of the directory at a path. -/
def entries? (disk : Disk) (path : String) : Option (List (String × FileTree)) :=
  match disk.resolve path true with
  | .ok ⟨.directory entries, _⟩ => some entries
  | _ => none

def isDirectory (disk : Disk) (path : String) : Bool := (disk.entries? path).isSome

/-- The text of the file at a path. -/
def read (disk : Disk) (path : String) : Except Fault String :=
  match disk.resolve path true with
  | .error fault => .error fault
  | .ok ⟨.file content, _⟩ =>
    match String.fromUTF8? ⟨content.toArray⟩ with
    | some text => .ok text
    | none => .error .notText
  | .ok ⟨.link _, _⟩ => .error .tooManyLinks
  | .ok ⟨.directory _, _⟩ => .error .isDirectory

end Disk

end PlaybookStyle
