/-
Scalars inside a line: quoted and plain ones, which may run over several lines.

Blanks met inside such a scalar are a `Gap` until the next character shows that
they belong to it. A gap of spaces is kept; a gap with line breaks is folded:
the first break counts as a space unless further breaks follow, which are then
kept instead.
-/

import PlaybookStyle.Yaml.Token.Basic

namespace PlaybookStyle.Yaml

/-- Blanks of a scalar that no content follows yet. -/
inductive Gap where
  | spaces (text : List Char)
  | breaks (first : List Char) (more : List Char)
deriving DecidableEq, Repr

namespace Gap

def empty : Gap := .spaces []

def isEmpty : Gap → Bool
  | .spaces text => text.isEmpty
  | .breaks _ _ => false

def hasBreak : Gap → Bool
  | .spaces _ => false
  | .breaks _ _ => true

/-- A space or tab; after a break it is indentation and lost. -/
def addBlank : Gap → Char → Gap
  | .spaces text, c => .spaces (text ++ [c])
  | gap, _ => gap

/-- A line break; it removes the spaces before it. -/
def addBreak : Gap → Char → Gap
  | .spaces _, b => .breaks [b] []
  | .breaks first more, b => .breaks first (more ++ [b])

/-- What a gap contributes to the content. -/
def text : Gap → List Char
  | .spaces text => text
  | .breaks ['\n'] [] => [' ']
  | .breaks ['\n'] more => more
  | .breaks first more => first ++ more

/-- Content in reverse, with the gap's text put behind it. -/
def flush (gap : Gap) (content : List Char) : List Char := gap.text.reverse ++ content

end Gap

/-! ### Quoted scalars -/

/-- The character that a one-letter escape stands for. -/
def shortEscape? : Char → Option Char
  | '0' => some '\x00'
  | 'a' => some '\x07'
  | 'b' => some '\x08'
  | 't' => some '\t'
  | '\t' => some '\t'
  | 'n' => some '\n'
  | 'v' => some '\x0b'
  | 'f' => some '\x0c'
  | 'r' => some '\r'
  | 'e' => some '\x1b'
  | ' ' => some ' '
  | '"' => some '"'
  | '/' => some '/'
  | '\\' => some '\\'
  | 'N' => some '\x85'
  | '_' => some '\u00a0'
  | 'L' => some '\u2028'
  | 'P' => some '\u2029'
  | _ => none

/-- The number of hexadecimal digits that follow an escape letter. -/
def escapeDigits? : Char → Option Nat
  | 'x' => some 2
  | 'u' => some 4
  | 'U' => some 8
  | _ => none

/-- The value of exactly `n` hexadecimal digits at the start of a text. -/
def hexValue? (n : Nat) (text : List Char) : Option Nat :=
  if (text.take n).length = n then
    (text.take n).foldl (fun acc c => do return (← acc) * 16 + (← hexDigit? c)) (some 0)
  else none

/-- The rest of a quoted scalar that opened at `start`: its content, and the
reader after the closing quote. `content` is what was read so far, in reverse. -/
def quotedContent (single : Bool) (start : Mark) (r : Reader) (gap : Gap) (content : List Char) :
    Read (List Char × Reader) :=
  match _hr : r.rest with
  | [] => fault .endInQuotes r.mark .scanningQuotedScalar start
  | c :: rest =>
    if r.mark.column == 0 && isDocumentMark (c :: rest) then
      fault .documentMarkInQuotes r.mark .scanningQuotedScalar start
    else
      match _hb : r.break? with
      | some (b, next) => quotedContent single start next (gap.addBreak b) content
      | none =>
        if isGap c then quotedContent single start (r.skip 1) (gap.addBlank c) content
        else if single then
          if c == '\'' then
            if rest.head? == some '\'' then
              quotedContent single start (r.skip 2) .empty ('\'' :: gap.flush content)
            else .ok ((gap.flush content).reverse, r.skip 1)
          else quotedContent single start (r.skip 1) .empty (c :: gap.flush content)
        else if c == '"' then .ok ((gap.flush content).reverse, r.skip 1)
        else if c == '\\' then
          match _hn : (r.skip 1).break? with
          | some (_, next) => quotedContent single start next (.breaks [] []) (gap.flush content)
          | none =>
            match rest with
            | [] => fault .unknownEscape r.mark .parsingQuotedScalar start
            | e :: digits =>
              match shortEscape? e, escapeDigits? e with
              | some d, _ => quotedContent single start (r.skip 2) .empty (d :: gap.flush content)
              | none, some n =>
                match hexValue? n digits with
                | none => fault .hexDigitExpected (r.skip 2).mark .parsingQuotedScalar start
                | some code =>
                  if (0xD800 ≤ code && code ≤ 0xDFFF) || code > 0x10FFFF then
                    fault .invalidCodePoint (r.skip 2).mark .parsingQuotedScalar start
                  else
                    quotedContent single start (r.skip (2 + n)) .empty
                      (Char.ofNat code :: gap.flush content)
              | none, none => fault .unknownEscape r.mark .parsingQuotedScalar start
        else quotedContent single start (r.skip 1) .empty (c :: gap.flush content)
termination_by r.rest.length
decreasing_by
  all_goals first
    | exact Reader.length_rest_break?_lt _hb
    | exact Reader.length_rest_skip_lt _hr (by omega)
    | exact Nat.lt_trans (Reader.length_rest_break?_lt _hn) (Reader.length_rest_skip_lt _hr (by omega))

/-! ### Plain scalars -/

/-- A plain scalar as read: its content, the reader behind the blanks that
follow it, and whether a line break is among them. -/
structure PlainScalar where
  text : List Char
  after : Reader
  broken : Bool

/-- The rest of a plain scalar that began at `start`. In block style its lines
are indented by at least `indent`. -/
def plainContent (flow : Bool) (indent : Nat) (start : Mark) (r : Reader) (gap : Gap)
    (content : List Char) : Read PlainScalar :=
  let done : Read PlainScalar := .ok ⟨content.reverse, r, gap.hasBreak⟩
  match _hr : r.rest with
  | [] => done
  | c :: rest =>
    if r.mark.column == 0 && isDocumentMark (c :: rest) then done
    else
      match _hb : r.break? with
      | some (b, next) => plainContent flow indent start next (gap.addBreak b) content
      | none =>
        if isGap c then
          if gap.hasBreak && r.mark.column < indent && c == '\t' then
            fault .tabInPlainIndent r.mark .scanningPlainScalar start
          else plainContent flow indent start (r.skip 1) (gap.addBlank c) content
        else if !gap.isEmpty && ((!flow && r.mark.column < indent) || c == '#') then done
        else if flow && c == ':' && rest.head?.any (fun d => isFlowMark d || d == '?') then
          fault .colonInFlowScalar r.mark .scanningPlainScalar start
        else if (c == ':' && blankOrEnd rest) || (flow && isFlowMark c) then done
        else plainContent flow indent start (r.skip 1) .empty (c :: gap.flush content)
termination_by r.rest.length
decreasing_by
  all_goals first
    | exact Reader.length_rest_break?_lt _hb
    | exact Reader.length_rest_skip_lt _hr (by omega)

end PlaybookStyle.Yaml
