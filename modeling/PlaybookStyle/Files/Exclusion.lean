/-
Exclusions: patterns for the paths that are left out.

Here `*` and `?` stand for separators too. `**` between separators is any number
of directories, braces hold alternatives, a backslash takes the meaning from the
character behind it, and brackets hold a set. A path is compared byte by byte.

`Token.rests` says what a token can leave of a text; a path is excluded if the
tokens can leave nothing of it.
-/

import PlaybookStyle.Text.Search

namespace PlaybookStyle.Files

namespace Exclusion

inductive Token where
  | literal (c : Char)
  /-- One byte. -/
  | anyone
  /-- Any number of bytes. -/
  | anything
  /-- Any number of directories in front. -/
  | leading
  /-- Anything in a directory. -/
  | trailing
  /-- A separator, or any number of directories between separators. -/
  | between
  /-- A byte of the ranges, or of none of them. -/
  | among (negated : Bool) (ranges : List (Char × Char))
  | choice (alternatives : List (List Token))
deriving Repr, Inhabited

/-! ### What a token stands for -/

abbrev Bytes : Type := List UInt8

def bytesOf (c : Char) : Bytes := c.toString.toUTF8.toList

/-- The text behind another. -/
def behind? : Bytes → Bytes → Option Bytes
  | [], text => some text
  | a :: expected, b :: text => if a = b then behind? expected text else none
  | _ :: _, [] => none

/-- The byte of the separator. -/
def separator : UInt8 := 47

/-- All ends of a text, the longest first. -/
def ends : Bytes → List Bytes
  | [] => [[]]
  | b :: text => (b :: text) :: ends text

/-- The ends of a text that follow a separator. -/
def endsBehindSeparators : Bytes → List Bytes
  | [] => []
  | b :: text => if b = separator then text :: endsBehindSeparators text else endsBehindSeparators text

/-- A range of characters contains a byte. The bytes of its two characters are
put next to each other, with the range from the last of the one to the first of
the other between them. -/
def inRange (byte : UInt8) (range : Char × Char) : Bool :=
  let first := bytesOf range.1
  let last := bytesOf range.2
  if range.1 = range.2 then first.contains byte
  else
    first.contains byte || last.contains byte ||
      match first.getLast?, last.head? with
      | some low, some high => low ≤ byte && byte ≤ high
      | _, _ => false

/-- One byte, if it is what is wanted. -/
def behindByte? (wanted : UInt8 → Bool) : Bytes → Option Bytes
  | b :: text => if wanted b then some text else none
  | [] => none

mutual

/-- There is nothing to compare. -/
def Token.isVoid : Token → Bool
  | .choice alternatives => allVoid alternatives
  | _ => false

def areVoid : List Token → Bool
  | [] => true
  | token :: rest => token.isVoid && areVoid rest

def allVoid : List (List Token) → Bool
  | [] => true
  | tokens :: rest => areVoid tokens && allVoid rest

end

mutual

/-- What a token can leave of one of the texts. -/
def Token.rests : Token → List Bytes → List Bytes
  | .literal c, texts => texts.filterMap (behind? (bytesOf c))
  | .anyone, texts => texts.filterMap (behindByte? fun _ => true)
  | .anything, texts => (texts.flatMap ends).eraseDups
  | .leading, texts => (texts ++ texts.flatMap endsBehindSeparators).eraseDups
  | .trailing, texts =>
    ((texts.filterMap (behindByte? (· == separator))).flatMap ends).eraseDups
  | .between, texts =>
    let inside := texts.filterMap (behindByte? (· == separator))
    (inside ++ inside.flatMap endsBehindSeparators).eraseDups
  | .among negated ranges, texts =>
    texts.filterMap (behindByte? fun byte => ranges.any (inRange byte) != negated)
  | .choice alternatives, texts =>
    if allVoid alternatives then texts else (choiceRests alternatives texts).eraseDups

/-- What tokens in a row can leave of one of the texts. -/
def restsOf : List Token → List Bytes → List Bytes
  | [], texts => texts
  | token :: tokens, texts => restsOf tokens (token.rests texts)

/-- What one of the alternatives can leave; one without anything to compare is
no alternative. -/
def choiceRests : List (List Token) → List Bytes → List Bytes
  | [], _ => []
  | tokens :: rest, texts =>
    (if areVoid tokens then [] else restsOf tokens texts) ++ choiceRests rest texts

end

/-! ### Reading -/

/-- Why a text is no exclusion. -/
inductive Problem where
  | openSet
  | range (first last : Char)
  | unopened
  | unclosed
  | escape
deriving DecidableEq, Repr

def Problem.message : Problem → String
  | openSet => "unclosed character class; missing ']'"
  | range first last =>
    "invalid range; '" ++ first.toString ++ "' > '" ++ last.toString ++ "'"
  | unopened => "unopened alternate group; missing '\x7b' (maybe escape '\x7d' with '[\x7d]'?)"
  | unclosed => "unclosed alternate group; missing '\x7d' (maybe escape '\x7b' with '[\x7b]'?)"
  | escape => "dangling '\\'"

/-- A set that is being read, the last range first. -/
structure OpenSet where
  negated : Bool
  ranges : List (Char × Char)
  /-- The last range waits for its end. -/
  dash : Bool

/-- What the last characters were. -/
inductive Phase where
  | plain
  | escaped
  /-- One star, with the character in front of it. -/
  | star (before? : Option Char)
  /-- Two stars, with the character in front of them. -/
  | stars (before? : Option Char)
  /-- An opening bracket, perhaps with a negation. -/
  | bracket (negated : Bool)
  | set (set : OpenSet)

/-- A group around the tokens that are being read. -/
structure Group where
  /-- The alternatives that are finished, the last one first. -/
  finished : List (List Token)
  /-- The tokens in front of the group, the last one first. -/
  outside : List Token

structure Reading where
  phase : Phase := .plain
  /-- The character read last. -/
  last? : Option Char := none
  /-- The tokens since the innermost brace or comma, the last one first. -/
  tokens : List Token := []
  /-- The open groups, the innermost first. -/
  groups : List Group := []

namespace Reading

def push (r : Reading) (token : Token) : Reading := { r with tokens := token :: r.tokens }

/-- Two stars with no meaning of their own. -/
def pushStars (r : Reading) : Reading := (r.push .anything).push .anything

/-- Puts a token for directories in the place of the separator before it; a token
for directories in front takes it in. -/
def join (r : Reading) (token : Token) : Reading :=
  match r.tokens with
  | .leading :: _ => r
  | _ :: rest => { r with tokens := token :: rest }
  | [] => r

/-- Reads a character that has its meaning by itself. -/
def plain (r : Reading) (c : Char) : Except Problem Reading :=
  let r := { r with phase := .plain }
  match c with
  | '?' => .ok (r.push .anyone)
  | '*' => .ok { r with phase := .star r.last? }
  | '[' => .ok { r with phase := .bracket false }
  | '{' => .ok { r with tokens := [], groups := ⟨[], r.tokens⟩ :: r.groups }
  | '}' =>
    match r.groups with
    | [] => .error .unopened
    | group :: groups =>
      let alternatives := (r.tokens.reverse :: group.finished).reverse
      .ok { r with tokens := .choice alternatives :: group.outside, groups }
  | ',' =>
    match r.groups with
    | [] => .ok (r.push (.literal c))
    | group :: groups =>
      .ok { r with
        tokens := []
        groups := { group with finished := r.tokens.reverse :: group.finished } :: groups }
  | '\\' => .ok { r with phase := .escaped }
  | _ => .ok (r.push (.literal c))

/-- Two stars stand for directories only behind a separator; in a group a brace or
a comma serves too. -/
def separated (r : Reading) (before? : Option Char) : Bool :=
  before? = some '/' || (!r.groups.isEmpty && (before? = some ',' || before? = some '{'))

/-- Reads a character behind two stars. -/
def behindStars (r : Reading) (before? : Option Char) (c : Char) : Except Problem Reading :=
  if c = '/' ∧ r.tokens.isEmpty then .ok { r.push .leading with phase := .plain }
  else if r.tokens.isEmpty || !r.separated before? then r.pushStars.plain c
  else if c = '/' then .ok { r.join .between with phase := .plain }
  else if !r.groups.isEmpty && (c = ',' || c = '}') then (r.join .trailing).plain c
  else r.pushStars.plain c

/-- Adds a character to a set. -/
def addToSet (r : Reading) (set : OpenSet) (c : Char) : Except Problem Reading :=
  match set.dash, set.ranges with
  | true, (first, _) :: ranges =>
    if c < first then .error (.range first c)
    else .ok { r with phase := .set { set with ranges := (first, c) :: ranges, dash := false } }
  | _, ranges => .ok { r with phase := .set { set with ranges := (c, c) :: ranges, dash := false } }

/-- Reads a character inside brackets. -/
def inSet (r : Reading) (set : OpenSet) (c : Char) : Except Problem Reading :=
  if c = ']' then
    let ranges := if set.dash then ('-', '-') :: set.ranges else set.ranges
    .ok { r.push (.among set.negated ranges.reverse) with phase := .plain }
  else if c = '-' ∧ set.dash = false then .ok { r with phase := .set { set with dash := true } }
  else r.addToSet set c

/-- Reads a character, depending on what the last ones were. -/
def next (r : Reading) (c : Char) : Except Problem Reading :=
  match r.phase with
  | .plain => r.plain c
  | .escaped => .ok { r.push (.literal c) with phase := .plain }
  | .star before? =>
    if c = '*' then .ok { r with phase := .stars before? } else (r.push .anything).plain c
  | .stars before? => r.behindStars before? c
  | .bracket negated =>
    if !negated && (c = '!' || c = '^') then .ok { r with phase := .bracket true }
    else r.addToSet ⟨negated, [], false⟩ c
  | .set set => r.inSet set c

def step (r : Reading) (c : Char) : Except Problem Reading := do
  return { ← r.next c with last? := some c }

/-- The tokens at the end of the text. -/
def finish (r : Reading) : Except Problem (List Token) :=
  let closed (r : Reading) : Except Problem (List Token) :=
    if r.groups.isEmpty then .ok r.tokens.reverse else .error .unclosed
  match r.phase with
  | .plain => closed r
  | .escaped => .error .escape
  | .star _ => closed (r.push .anything)
  | .stars before? =>
    if r.tokens.isEmpty then closed (r.push .leading)
    else if r.separated before? then closed (r.join .trailing)
    else closed r.pushStars
  | .bracket _ | .set _ => .error .openSet

end Reading

end Exclusion

/-- A pattern for paths that are left out. -/
structure Exclusion where
  tokens : List Exclusion.Token
deriving Repr, Inhabited

namespace Exclusion

def parse (text : String) : Except Problem Exclusion := do
  let reading ← text.toList.foldlM Reading.step {}
  return ⟨← reading.finish⟩

/-- A path is excluded. Two stars alone exclude every path. -/
def excludes (e : Exclusion) (path : String) : Bool :=
  match e.tokens with
  | [.leading] => true
  | tokens => (restsOf tokens [path.toUTF8.toList]).contains []

end Exclusion

end PlaybookStyle.Files
