/-
Block scalars: a header, then all lines indented deeper than what they belong to.

The indentation is given by a digit in the header or found from the leading
lines. The body is then one pass over the characters: inside the indentation,
or inside a line.
-/

import PlaybookStyle.Yaml.Token.Basic

namespace PlaybookStyle.Yaml

/-- What happens to the line breaks at the end of a block scalar. -/
inductive Chomping where
  | strip
  | clip
  | keep
deriving DecidableEq, Repr

def Chomping.ofMark? : Char → Option Chomping
  | '+' => some .keep
  | '-' => some .strip
  | _ => none

/-- The header of a block scalar: chomping mark and indentation digit, in
either order, and the reader after both. -/
def blockHeader (start : Mark) (r : Reader) : Read (Chomping × Option Nat × Reader) :=
  let digit (r : Reader) : Read (Option Nat × Reader) :=
    match r.rest with
    | c :: _ =>
      if c.isDigit then
        if c == '0' then fault .zeroIndentIndicator r.mark .scanningBlockScalar start
        else .ok (some (c.toNat - '0'.toNat), r.skip 1)
      else .ok (none, r)
    | [] => .ok (none, r)
  let chomping (r : Reader) : Option (Chomping × Reader) :=
    match r.rest with
    | c :: _ => (Chomping.ofMark? c).map fun mode => (mode, r.skip 1)
    | [] => none
  match chomping r with
  | some (mode, r) => (digit r).map fun (indent?, r) => (mode, indent?, r)
  | none => do
    let (indent?, r) ← digit r
    match indent?, chomping r with
    | some n, some (mode, r) => return (mode, some n, r)
    | _, _ => return (.clip, indent?, r)

/-- The indentation of a block scalar whose header names none: the widest of
its leading lines, up to the first with content. -/
def blockIndent (start : Mark) (r : Reader) (widest : Nat) : Read Nat :=
  match _hr : r.rest with
  | [] => .ok (max widest r.mark.column)
  | c :: _ =>
    if c == ' ' then blockIndent start (r.skip 1) widest
    else if c == '\t' then fault .tabInBlockIndent r.mark .scanningBlockScalar start
    else
      match _hb : r.break? with
      | some (_, next) => blockIndent start next (max widest r.mark.column)
      | none => .ok (max widest r.mark.column)
termination_by r.rest.length
decreasing_by
  all_goals first
    | exact Reader.length_rest_break?_lt _hb
    | exact Reader.length_rest_skip_lt _hr (by omega)

/-- The part of a block scalar read so far. -/
structure BlockText where
  /-- Content in reverse. -/
  content : List Char
  /-- The break that ended the last line of content. -/
  lastBreak : List Char
  /-- The breaks of the empty lines after it. -/
  emptyLines : List Char
  /-- The last line of content began with a blank. -/
  indented : Bool

namespace BlockText

def empty : BlockText := ⟨[], [], [], false⟩

/-- Opens a line of content. A folded scalar joins two lines by a space, or by
the empty lines between them, unless one of the two begins with a blank. -/
def openLine (literal : Bool) (first : Char) (t : BlockText) : BlockText :=
  let folds := !literal && t.lastBreak == ['\n'] && !t.indented && !isGap first
  let joint := if folds then if t.emptyLines.isEmpty then [' '] else [] else t.lastBreak
  ⟨first :: (t.emptyLines.reverse ++ (joint.reverse ++ t.content)), [], [], isGap first⟩

/-- The content of the scalar once its last line is read. -/
def finish (mode : Chomping) (t : BlockText) : List Char :=
  t.content.reverse ++ (if mode = .strip then [] else t.lastBreak) ++
    if mode = .keep then t.emptyLines else []

end BlockText

/-- The lines of a block scalar indented by `indent`: the text read, and the
reader at the first character that is no part of it. -/
def blockBody (literal : Bool) (indent : Nat) (start : Mark) (r : Reader) (inLine : Bool)
    (t : BlockText) : Read (BlockText × Reader) :=
  match _hr : r.rest with
  | [] => .ok (t, r)
  | c :: _ =>
    match _hb : r.break? with
    | some (b, next) =>
      blockBody literal indent start next false
        (if inLine then { t with lastBreak := [b] }
         else { t with emptyLines := t.emptyLines ++ [b] })
    | none =>
      if inLine then
        blockBody literal indent start (r.skip 1) true { t with content := c :: t.content }
      else if r.mark.column < indent then
        if c == ' ' then blockBody literal indent start (r.skip 1) false t
        else if c == '\t' then fault .tabInBlockIndent r.mark .scanningBlockScalar start
        else .ok (t, r)
      else blockBody literal indent start (r.skip 1) true (t.openLine literal c)
termination_by r.rest.length
decreasing_by
  all_goals first
    | exact Reader.length_rest_break?_lt _hb
    | exact Reader.length_rest_skip_lt _hr (by omega)

/-- A block scalar whose mark stands at `r`; `floor` is the least indentation
its lines may have, and a digit in the header counts from one less. -/
def blockScalar (literal : Bool) (floor : Nat) (r : Reader) : Read (List Char × Reader) := do
  let start := r.mark
  let (mode, indent?, r) ← blockHeader start (r.skip 1)
  let r := r.skipGaps
  let r := if r.rest.head? == some '#' then r.skipLineRest else r
  if !breakOrEnd r.rest then
    fault .commentOrBreakExpected r.mark .scanningBlockScalar start
  let r := match r.break? with
    | some (_, next) => next
    | none => r
  let indent ← match indent? with
    | some n => pure (floor - 1 + n)
    | none => do
      let widest ← blockIndent start r 0
      pure (max widest (max floor 1))
  let (t, r) ← blockBody literal indent start r false .empty
  return (t.finish mode, r)

end PlaybookStyle.Yaml
