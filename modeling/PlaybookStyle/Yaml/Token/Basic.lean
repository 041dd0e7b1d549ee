/-
Tokens: the marks, names and scalars of a text, in the order they are read.

Where a block collection starts or ends is a token of its own, found from
indentation alone. A token keeps the mark of its first character.
-/

import PlaybookStyle.Yaml.Error
import PlaybookStyle.Yaml.Tag

namespace PlaybookStyle.Yaml

/-- How a scalar is written. -/
inductive ScalarStyle where
  /-- Without quotes or header. -/
  | plain
  | literal
  | folded
  | quoted
deriving DecidableEq, Repr, Inhabited

/-- What a token is. -/
inductive Lexeme where
  | streamEnd
  | versionDirective (major minor : Nat)
  | tagDirective (handle : String) (expansion : Octets)
  | documentStart
  | documentEnd
  | blockSequenceStart
  | blockMappingStart
  | blockEnd
  | flowSequenceStart
  | flowSequenceEnd
  | flowMappingStart
  | flowMappingEnd
  | blockEntry
  | flowEntry
  | key
  | value
  | alias (name : String)
  | anchor (name : String)
  | tag (handle : String) (suffix : Octets)
  /-- A scalar with its content. -/
  | scalar (text : String) (style : ScalarStyle)
deriving DecidableEq, Repr

structure Token where
  lexeme : Lexeme
  mark : Mark
deriving DecidableEq, Repr

/-- Items up to the point where reading failed, if it did. -/
structure Stream (α : Type) where
  items : List α
  failure? : Option SyntaxError
deriving Repr

/-- The result of reading one construct. -/
abbrev Read (α : Type) := Except SyntaxError α

/-- A problem at a mark, within a situation that started at another. -/
def fault {α : Type} (problem : Problem) (mark : Mark) (situation : Situation) (since : Mark) :
    Read α :=
  .error ⟨problem, mark, some (situation, since)⟩

/-- A problem at a mark that no situation explains. -/
def bareFault {α : Type} (problem : Problem) (mark : Mark) : Read α :=
  .error ⟨problem, mark, none⟩

theorem Reader.length_rest_skip_lt {r : Reader} {c : Char} {rest : List Char} {n : Nat}
    (h : r.rest = c :: rest) (hn : 0 < n) : (r.skip n).rest.length < r.rest.length := by
  simp only [Reader.skip, List.length_drop, h, List.length_cons]
  omega

end PlaybookStyle.Yaml
