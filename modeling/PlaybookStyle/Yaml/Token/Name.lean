/-
Names: anchors, aliases, tags and the two directives.
-/

import PlaybookStyle.Yaml.Token.Basic

namespace PlaybookStyle.Yaml

/-- The characters of a class that stand here, and the reader after them. -/
def Reader.takeWhile (p : Char → Bool) (r : Reader) : List Char × Reader :=
  (r.rest.takeWhile p, r.skipWhile p)

/-! ### Anchors and aliases -/

/-- The name after an anchor or alias mark. A blank or one of a few marks has
to follow it. -/
def anchorName (situation : Situation) (r : Reader) : Read (String × Reader) :=
  let (name, after) := (r.skip 1).takeWhile isWord
  let closes := blankOrEnd after.rest ||
    after.rest.head?.any (· ∈ ['?', ':', ',', ']', '\x7d', '%', '@', '\x60'])
  if name.isEmpty || !closes then fault .anchorNameExpected after.mark situation r.mark
  else .ok (String.ofList name, after)

/-! ### Tags -/

/-- The octet that a percent sign and two hexadecimal digits stand for. -/
def octet? : List Char → Option Nat
  | '%' :: a :: b :: _ => do return (← hexDigit? a) * 16 + (← hexDigit? b)
  | _ => none

/-- The number of octets of the character that starts with an octet. -/
def octetWidth? (octet : Nat) : Option Nat :=
  if octet < 0x80 then some 1
  else if 0xC0 ≤ octet && octet < 0xE0 then some 2
  else if 0xE0 ≤ octet && octet < 0xF0 then some 3
  else if 0xF0 ≤ octet && octet < 0xF8 then some 4
  else none

/-- The trailing octets of an escaped character, `n` of them. -/
def trailingOctets (situation : Situation) (start : Mark) (r : Reader) : Nat → Read Octets
  | 0 => .ok []
  | n + 1 =>
    match octet? r.rest with
    | none => fault .octetExpected r.mark situation start
    | some octet =>
      if 0x80 ≤ octet && octet < 0xC0 then
        (trailingOctets situation start (r.skip 3) n).map (UInt8.ofNat octet :: ·)
      else fault .wrongTrailingOctet r.mark situation start

/-- The octets of the characters of a class that stand here, percent escapes
resolved. Such characters are ASCII. -/
def tagText (p : Char → Bool) (situation : Situation) (start : Mark) (r : Reader)
    (content : Octets) : Read (Octets × Reader) :=
  match _hr : r.rest with
  | [] => .ok (content.reverse, r)
  | c :: _ =>
    if !p c then .ok (content.reverse, r)
    else if c == '%' then
      match octet? r.rest with
      | none => fault .octetExpected r.mark situation start
      | some first =>
        match octetWidth? first with
        | none => fault .wrongLeadingOctet r.mark situation start
        | some width =>
          match trailingOctets situation start (r.skip 3) (width - 1) with
          | .error e => .error e
          | .ok more =>
            tagText p situation start (r.skip (3 + 3 * more.length))
              (more.reverse ++ UInt8.ofNat first :: content)
    else tagText p situation start (r.skip 1) (c.toNat.toUInt8 :: content)
termination_by r.rest.length
decreasing_by
  all_goals exact Reader.length_rest_skip_lt _hr (by omega)

/-- A tag's octets behind a head that was already read, up to a null octet;
head and tag together are not empty. -/
def tagUri (p : Char → Bool) (situation : Situation) (start : Mark) (head : List Char)
    (r : Reader) : Read (Octets × Reader) := do
  let (text, after) ← tagText p situation start r []
  if head.isEmpty && text.isEmpty then fault .tagExpected after.mark situation start
  else return ((head.drop 1).map (·.toNat.toUInt8) ++ text.untilNull, after)

/-- A handle: a mark, a word and, unless it is no handle after all, a second mark. -/
def tagHandle (directive : Bool) (start : Mark) (r : Reader) : Read (List Char × Reader) :=
  if r.rest.head? != some '!' then
    fault .tagMarkExpected r.mark
      (if directive then .scanningTagDirectiveHandle else .scanningTag) start
  else
    let (word, after) := (r.skip 1).takeWhile isWord
    if after.rest.head? == some '!' then .ok ('!' :: word ++ ['!'], after.skip 1)
    else if directive && !word.isEmpty then
      fault .tagMarkExpected after.mark .parsingTagDirectiveHandle start
    else .ok ('!' :: word, after)

/-- A tag: in angle brackets, behind a named handle, or local. -/
def tagLexeme (flow : Bool) (r : Reader) : Read (Lexeme × Reader) := do
  let start := r.mark
  let (handle, suffix, after) ←
    if (r.skip 1).rest.head? == some '<' then do
      let (suffix, after) ← tagUri isUriChar .parsingTag start [] (r.skip 2)
      if after.rest.head? != some '>' then
        fault .tagBracketExpected after.mark .scanningTag start
      else pure ([], suffix, after.skip 1)
    else do
      let (handle, after) ← tagHandle false start r
      if handle.length > 1 && handle.getLast? == some '!' then
        let (suffix, after) ← tagUri isTagChar .parsingTag start [] after
        pure (handle, suffix, after)
      else
        let (suffix, after) ← tagUri isTagChar .parsingTag start handle after
        pure (if suffix.isEmpty then ([], [Octets.mark], after) else (['!'], suffix, after))
  if !(flow && after.rest.head? == some ',') && !blankOrEnd after.rest then
    fault .blankOrBreakExpected after.mark .scanningTag start
  else return (.tag (String.ofList handle) suffix, after)

/-! ### Directives -/

/-- A part of a version number, of at most nine digits. -/
def versionPart (start : Mark) (r : Reader) : Read (Nat × Reader) :=
  let (digits, after) := r.takeWhile Char.isDigit
  if digits.length > 9 then
    fault .versionTooLong (r.skip 9).mark .scanningVersionDirective start
  else if digits.isEmpty then
    fault .versionMissing after.mark .scanningVersionDirective start
  else .ok (digits.foldl (fun n c => n * 10 + (c.toNat - '0'.toNat)) 0, after)

/-- A directive line, up to and including its break. -/
def directive (r : Reader) : Read (Lexeme × Reader) := do
  let start := r.mark
  let (name, r) := (r.skip 1).takeWhile isWord
  if name.isEmpty then
    fault .directiveNameMissing r.mark .scanningDirective start
  if !blankOrEnd r.rest then
    fault .directiveNameNotAlphabetical r.mark .scanningDirective start
  let (lexeme, r) ←
    match String.ofList name with
    | "YAML" => do
      let (major, r) ← versionPart start r.skipGaps
      if r.rest.head? != some '.' then
        fault .versionDotExpected r.mark .scanningVersionDirective start
      let (minor, r) ← versionPart start (r.skip 1)
      pure (Lexeme.versionDirective major minor, r)
    | "TAG" => do
      let (handle, r) ← tagHandle true start r.skipGaps
      if !r.rest.head?.any isGap then
        fault .blankExpected r.mark .scanningTagDirective start
      let (expansion, r) ← tagUri isUriChar .parsingTagDirective start [] r.skipGaps
      if !blankOrEnd r.rest then
        fault .blankOrBreakExpected r.mark .scanningTagDirective start
      pure (.tagDirective (String.ofList handle) expansion, r)
    | _ => fault .unknownDirective r.mark .scanningDirective start
  let r := r.skipGaps
  let r := if r.rest.head? == some '#' then r.skipLineRest else r
  if !breakOrEnd r.rest then
    fault .commentOrBreakExpected r.mark .scanningDirective start
  return (lexeme, match r.break? with
    | some (_, next) => next
    | none => r)

end PlaybookStyle.Yaml
