/-
Keys: the part of a line before the colon that makes it an entry.
-/

import PlaybookStyle.Outline.Quote
import PlaybookStyle.Source.Position

namespace PlaybookStyle.Outline

open Text

/-- A line cut at the colon behind its key. -/
structure KeySplit where
  /-- The key, without its quotes. -/
  key : List Char
  /-- The bytes before the colon. -/
  colon : Nat
  /-- The bytes of blanks among them that stand directly before the colon. -/
  beforeColon : Nat
  /-- The text behind the colon. -/
  rest : List Char
deriving DecidableEq, Repr

/-- A blank or the end of the line stands here, so a colon before it ends a key. -/
def endsKey : List Char → Bool
  | [] => true
  | c :: _ => c == ' ' || c == '\t'

/-- Plain text cut at the first colon that ends a key, unless a comment starts
before. `spaced` says that a space stands before the text. -/
def splitColon (spaced : Bool) : List Char → Option (List Char × List Char)
  | [] => none
  | c :: rest =>
    if c = '#' ∧ spaced then none
    else if c = ':' ∧ endsKey rest then some ([], rest)
    else (splitColon (c == ' ') rest).map fun (before, after) => (c :: before, after)

/-- Nothing is lost at the colon. -/
theorem splitColon_append {spaced : Bool} {text before after : List Char}
    (h : splitColon spaced text = some (before, after)) : before ++ ':' :: after = text := by
  fun_induction splitColon spaced text generalizing before after with
  | case1 => simp at h
  | case2 => simp at h
  | case3 spaced c rest _ hcolon =>
    simp only [Option.some.injEq, Prod.mk.injEq] at h
    simp [← h.1, ← h.2, hcolon.1]
  | case4 spaced c rest _ _ ih =>
    simp only [Option.map_eq_some_iff, Prod.mk.injEq, Prod.exists] at h
    obtain ⟨b, a, hs, rfl, rfl⟩ := h
    simp [ih hs]

/-- The characters that no plain key starts with. -/
def opensNoKey (c : Char) : Bool :=
  c ∈ ['\x7b', '[', '#', '|', '>', '!', '&', '*', '?', '%', '@', '\x60']

/-- The key of a line, quoted or plain, with what surrounds its colon. -/
def splitKey (text : List Char) : Option KeySplit :=
  match text with
  | [] => none
  | c :: rest =>
    if c = '"' ∨ c = '\'' then
      match splitQuoted c rest with
      | none => none
      | some (inner, after) =>
        let spaces := (after.takeWhile (· == ' ')).length
        match after.dropWhile (· == ' ') with
        | ':' :: value =>
          if endsKey value then some ⟨inner, byteLength inner + 2 + spaces, spaces, value⟩ else none
        | _ => none
    else if opensNoKey c then none
    else
      match splitColon false text with
      | none => none
      | some (before, value) =>
        let key := trimEnd before
        if key.isEmpty then none
        else some ⟨key, byteLength before, byteLength before - byteLength key, value⟩

end PlaybookStyle.Outline
