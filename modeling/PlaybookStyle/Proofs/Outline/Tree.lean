/-
Trees of keys, items and leaves, and the ways of laying them out in blocks.

A `Tree` is what an outline says when positions, blanks and line ends are left
out (`Node.tree`). A `Writing` fixes how keys and leaves are written. `Rendered`
then relates a tree to the lines of any block layout of it: the indentations are
free as far as the block structure leaves them free, a sequence may stand at the
indentation of its key, and a collection may begin right behind a dash.
`Document` adds what carries no structure: blank lines, comments, document
markers, and blanks at the ends of lines.
-/

import PlaybookStyle.Outline.Basic
import PlaybookStyle.Outline.Line

namespace PlaybookStyle.Outline

open Text

/-! ### Trees -/

/-- Keys and items over leaves. -/
inductive Tree (α : Type) where
  | nothing
  | leaf (a : α)
  | mapping (entries : List (List Char × Tree α))
  | sequence (items : List (Tree α))

section Trees

variable {α : Type}

mutual

/-- What an outline says: its keys in order, its nesting, and something of each scalar. -/
def Node.tree (view : Scalar → α) : Node → Tree α
  | .mapping _ entries => .mapping (entryTrees view entries)
  | .sequence _ items => .sequence (itemTrees view items)
  | .scalar s => .leaf (view s)
  | .empty => .nothing

def entryTrees (view : Scalar → α) : List (Entry Node) → List (List Char × Tree α)
  | [] => []
  | entry :: rest => entryTree view entry :: entryTrees view rest

def entryTree (view : Scalar → α) : Entry Node → List Char × Tree α
  | ⟨key, _, _, value, _⟩ => (key.toList, Node.tree view value)

def itemTrees (view : Scalar → α) : List (Item Node) → List (Tree α)
  | [] => []
  | item :: rest => itemTree view item :: itemTrees view rest

def itemTree (view : Scalar → α) : Item Node → Tree α
  | ⟨_, value, _⟩ => Node.tree view value

end

mutual

/-- All leaves have a property. -/
def Tree.All (p : α → Prop) : Tree α → Prop
  | .nothing => True
  | .leaf a => p a
  | .mapping entries => AllEntries p entries
  | .sequence items => AllItems p items

def AllEntries (p : α → Prop) : List (List Char × Tree α) → Prop
  | [] => True
  | entry :: rest => AllEntry p entry ∧ AllEntries p rest

def AllEntry (p : α → Prop) : List Char × Tree α → Prop
  | (_, tree) => tree.All p

def AllItems (p : α → Prop) : List (Tree α) → Prop
  | [] => True
  | item :: rest => item.All p ∧ AllItems p rest

end

end Trees

/-! ### Layouts -/

/-- A line of a block: its indentation and its text. -/
structure BlockLine where
  indent : Nat
  text : List Char
deriving DecidableEq, Repr

/-- A logical line without its number. -/
def LogicalLine.block (line : LogicalLine) : BlockLine := ⟨line.indent, line.text⟩

/-- Some spaces, at least one. -/
def gap (n : Nat) : List Char := List.replicate (n + 1) ' '

/-- A text starts with something other than a blank or a comment. -/
def Starts (text : List Char) : Prop := ∃ c rest, text = c :: rest ∧ isBlank c = false ∧ c ≠ '#'

/-- A text ends with something other than a blank. -/
def Closes (text : List Char) : Prop := ∃ before c, text = before ++ [c] ∧ isBlank c = false

/-- What may stand at the end of a line: nothing, or a comment. Blanks behind a
comment are blanks at the end of the line. -/
inductive Note : List Char → Prop
  | nothing : Note []
  | comment {g : Nat} {text : List Char} (h : Closes ('#' :: text)) : Note (gap g ++ '#' :: text)

/-- How keys and leaves are written. -/
structure Writing (α : Type) where
  /-- What a scalar of an outline shows of its leaf. -/
  view : Scalar → α
  /-- A key, and what is written before its colon. -/
  key : List Char → List Char → Prop
  /-- A leaf behind a colon or a dash: the indentation of that line, the text
  behind the blanks, and the lines that go on with it. -/
  inline : α → Nat → List Char → List BlockLine → Prop
  /-- A leaf on lines of its own: the indentation it is under, the indentation and
  text of its first line, and the lines that go on with it. -/
  below : α → Nat → Nat → List Char → List BlockLine → Prop
  /-- What else than a comment may stand alone behind a colon or a dash. -/
  properties : List Char → Prop
  /-- A leaf that goes on at the depth of its first line. -/
  straight : α → Prop

section Layouts

variable {α : Type} (W : Writing α)

/-- What stands behind a colon or a dash that has no leaf or collection on its line. -/
inductive Writing.Lead : List Char → Prop
  | note {text : List Char} (h : Note text) : Writing.Lead text
  | properties {text : List Char} {g : Nat} (h : W.properties text) : Writing.Lead (gap g ++ text)

mutual

/-- A mapping or a sequence at an indentation, and its lines. -/
inductive Rendered : Tree α → Nat → List BlockLine → Prop
  | mapping {entries : List (List Char × Tree α)} {k : Nat} {lines : List BlockLine}
      (nonempty : entries ≠ []) (h : RenderedEntries entries k lines) :
      Rendered (.mapping entries) k lines
  | sequence {items : List (Tree α)} {k : Nat} {lines : List BlockLine}
      (nonempty : items ≠ []) (h : RenderedItems items k lines) :
      Rendered (.sequence items) k lines

/-- A leaf or a collection on lines deeper than an indentation. -/
inductive RenderedBelow : Tree α → Nat → List BlockLine → Prop
  | leaf {a : α} {k m : Nat} {text : List Char} {below : List BlockLine} (deeper : k < m)
      (h : W.below a k m text below) : RenderedBelow (.leaf a) k (⟨m, text⟩ :: below)
  | block {tree : Tree α} {k m : Nat} {lines : List BlockLine} (deeper : k < m)
      (h : Rendered tree m lines) : RenderedBelow tree k lines

inductive RenderedEntries : List (List Char × Tree α) → Nat → List BlockLine → Prop
  | nil {k : Nat} : RenderedEntries [] k []
  | cons {entry : List Char × Tree α} {rest : List (List Char × Tree α)} {k : Nat}
      {lines more : List BlockLine} (first : RenderedEntry entry k lines)
      (others : RenderedEntries rest k more) : RenderedEntries (entry :: rest) k (lines ++ more)

/-- An entry: nothing or a leaf behind the colon, a child on the lines below, or
items at the indentation of the key. -/
inductive RenderedEntry : List Char × Tree α → Nat → List BlockLine → Prop
  | nothing {key written lead : List Char} {k : Nat} (hkey : W.key key written)
      (hlead : W.Lead lead) : RenderedEntry (key, .nothing) k [⟨k, written ++ ':' :: lead⟩]
  | leaf {key written text : List Char} {a : α} {k g : Nat} {below : List BlockLine}
      (hkey : W.key key written) (h : W.inline a k text below) :
      RenderedEntry (key, .leaf a) k (⟨k, written ++ ':' :: (gap g ++ text)⟩ :: below)
  | deeper {key written lead : List Char} {tree : Tree α} {k : Nat} {lines : List BlockLine}
      (hkey : W.key key written) (hlead : W.Lead lead) (h : RenderedBelow tree k lines) :
      RenderedEntry (key, tree) k (⟨k, written ++ ':' :: lead⟩ :: lines)
  | flat {key written note : List Char} {items : List (Tree α)} {k : Nat} {lines : List BlockLine}
      (hkey : W.key key written) (hnote : Note note) (nonempty : items ≠ [])
      (h : RenderedItems items k lines) :
      RenderedEntry (key, .sequence items) k (⟨k, written ++ ':' :: note⟩ :: lines)

inductive RenderedItems : List (Tree α) → Nat → List BlockLine → Prop
  | nil {k : Nat} : RenderedItems [] k []
  | cons {item : Tree α} {rest : List (Tree α)} {k : Nat} {lines more : List BlockLine}
      (first : RenderedItem item k lines) (others : RenderedItems rest k more) :
      RenderedItems (item :: rest) k (lines ++ more)

/-- An item: nothing, a leaf or the first line of a collection behind the dash, or
a child on the lines below. A collection behind the dash has its other lines in
the column of its first. -/
inductive RenderedItem : Tree α → Nat → List BlockLine → Prop
  | nothing {lead : List Char} {k : Nat} (hlead : W.Lead lead) :
      RenderedItem .nothing k [⟨k, '-' :: lead⟩]
  | leaf {a : α} {text : List Char} {k g : Nat} {below : List BlockLine}
      (h : W.inline a k text below) :
      RenderedItem (.leaf a) k (⟨k, '-' :: (gap g ++ text)⟩ :: below)
  | compact {tree : Tree α} {text : List Char} {k g : Nat} {below : List BlockLine}
      (h : Rendered tree (k + g + 2) (⟨k + g + 2, text⟩ :: below)) :
      RenderedItem tree k (⟨k, '-' :: (gap g ++ text)⟩ :: below)
  | deeper {tree : Tree α} {lead : List Char} {k : Nat} {lines : List BlockLine}
      (hlead : W.Lead lead) (h : RenderedBelow tree k lines) :
      RenderedItem tree k (⟨k, '-' :: lead⟩ :: lines)

end

end Layouts

/-! ### Documents -/

/-- A line without structure: a blank line, a comment, a directive, or the mark
that a document starts or ends with. -/
inductive IsIdle : List Char → Prop
  | blank {line : List Char} (h : line.all isBlank) : IsIdle line
  | comment {blanks text : List Char} (h : blanks.all isBlank) : IsIdle (blanks ++ '#' :: text)
  | directive {text : List Char} : IsIdle ("%YAML".toList ++ text)
  | start {note blanks : List Char} (hnote : Note note) (h : blanks.all isBlank) :
      IsIdle ("---".toList ++ note ++ blanks)
  | stop {blanks : List Char} (h : blanks.all isBlank) : IsIdle ("...".toList ++ blanks)

/-- Source lines that hold the lines of a block in order, with any idle lines
between them and any blanks at their ends. -/
inductive Document : List BlockLine → List (List Char) → Prop
  | nil : Document [] []
  | idle {blocks : List BlockLine} {line : List Char} {lines : List (List Char)}
      (h : IsIdle line) (more : Document blocks lines) : Document blocks (line :: lines)
  | block {block : BlockLine} {blocks : List BlockLine} {blanks : List Char}
      {lines : List (List Char)} (h : blanks.all isBlank) (more : Document blocks lines) :
      Document (block :: blocks)
        ((List.replicate block.indent ' ' ++ block.text ++ blanks) :: lines)

end PlaybookStyle.Outline
