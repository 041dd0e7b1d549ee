/-
Brackets.

YAML reads a collection in brackets character by character: a quote opens a quoted
scalar only where a token may begin, and brackets count outside quoted scalars and
comments (`FlowState.step`). The scanner counts brackets and quotes in the text that it
has joined so far, whatever they stand in. The two agree as long as the scanner takes
the characters for what they are (`FlowState.countsIn`).

* `FlowState.balance_cons` — what the scanner counts at a character.
* `FlowState.balance_run`, `FlowState.balance_cut` — what it has counted behind a text.
-/

import PlaybookStyle.Proofs.Outline.Between
import PlaybookStyle.Yaml.Mark

namespace PlaybookStyle.Outline

open Text
open Yaml (isFlowMark isGap)

/-! ### Reading brackets -/

/-- What a character in a collection stands in. -/
inductive FlowMode where
  /-- Between tokens: the next character that is not blank begins one. -/
  | token
  | word
  /-- Behind a colon in a word, which ends it if a blank follows. -/
  | colon
  /-- In an anchor or alias. -/
  | name
  | tag
  /-- In the angle brackets of a tag. -/
  | angled
  | single
  | double
  /-- Behind a backslash between double quotes. -/
  | guarded
  | comment
deriving DecidableEq, Repr

def isQuote (c : Char) : Bool := c == '"' || c == '\''

def opensBracket (c : Char) : Bool := c == '[' || c == '\x7b'

def closesBracket (c : Char) : Bool := c == ']' || c == '\x7d'

namespace FlowMode

/-- Brackets do not count here. -/
def isVerbatim : FlowMode → Bool
  | single | double | guarded | comment | angled => true
  | token | word | colon | name | tag => false

/-- What the character behind stands in; `spaced` says that a blank or the start of the
line comes before it. -/
def next (spaced : Bool) (mode : FlowMode) (c : Char) : FlowMode :=
  match mode with
  | token =>
    if isFlowMark c || isGap c || c == ':' || c == '?' then token
    else if c = '#' then comment
    else if c = '\'' then single
    else if c = '"' then double
    else if c = '!' then tag
    else if c = '&' || c = '*' then name
    else word
  | word =>
    if isFlowMark c then token
    else if c == '#' && spaced then comment
    else if c = ':' then colon
    else word
  | colon => if isFlowMark c || isGap c then token else if c = ':' then colon else word
  | name => if isFlowMark c || isGap c || c == ':' then token else name
  | tag => if isFlowMark c || isGap c then token else if c = '<' then angled else tag
  | angled => if c = '>' then tag else angled
  | single => if c = '\'' then token else single
  | double => if c = '\\' then guarded else if c = '"' then token else double
  | guarded => double
  | comment => comment

/-- What the first character of the next line stands in. -/
def nextLine : FlowMode → FlowMode
  | word => word
  | single => single
  | double | guarded => double
  | token | colon | name | tag | angled | comment => token

/-- The scanner takes the character for what it is: no quote stands in a word, an anchor
or a tag, and in a comment neither a quote nor a bracket. -/
def counts (mode : FlowMode) (c : Char) : Bool :=
  match mode with
  | token | single | double | guarded => true
  | word | colon | name | tag => !isQuote c
  | angled | comment => !(isQuote c || opensBracket c || closesBracket c)

end FlowMode

/-- Where the reading of a collection has come to. -/
structure FlowState where
  mode : FlowMode
  /-- A blank or the start of the line comes before. -/
  spaced : Bool
  /-- The brackets that are open. -/
  depth : Nat
deriving DecidableEq, Repr

namespace FlowState

/-- Before the bracket that opens the collection. -/
def start : FlowState := ⟨.token, true, 0⟩

def step (s : FlowState) (c : Char) : FlowState where
  mode := s.mode.next s.spaced c
  spaced := isGap c
  depth :=
    if s.mode.isVerbatim then s.depth
    else if opensBracket c then s.depth + 1
    else if closesBracket c then s.depth - 1
    else s.depth

def run (s : FlowState) (text : List Char) : FlowState := text.foldl step s

/-- At the start of the line below the one with a text. -/
def after (s : FlowState) (text : List Char) : FlowState :=
  ⟨(s.run text).mode.nextLine, true, (s.run text).depth⟩

/-- A text cut behind the bracket that leaves none open. -/
def cut (s : FlowState) : List Char → Option (List Char × List Char)
  | [] => none
  | c :: rest =>
    if (s.step c).depth = 0 then some ([c], rest)
    else ((s.step c).cut rest).map fun found => (c :: found.1, found.2)

/-- A text without the comment at its end. -/
def code (s : FlowState) : List Char → List Char
  | [] => []
  | c :: rest => if (s.step c).mode = .comment then [] else c :: (s.step c).code rest

/-- The scanner takes the characters of a text for what they are, up to the bracket that
leaves none open; the text behind that opens none. -/
def countsIn (s : FlowState) : List Char → Bool
  | [] => true
  | c :: rest =>
    s.mode.counts c &&
      if (s.step c).depth = 0 then openBrackets rest ≤ 0 else (s.step c).countsIn rest

/-- The scanner takes the characters of all lines for what they are, and passes over no
line but comments outside quoted scalars. -/
def counted (s : FlowState) : List (List Char) → Bool
  | [] => true
  | line :: rest =>
    (if IsPassedOver line then (trim line).head? == some '#' && !s.mode.isVerbatim
      else s.countsIn (trim line)) &&
      (s.after (trim line)).counted rest

/-- No comment stands behind a token before the last of some lines. -/
def bare (s : FlowState) : List (List Char) → Bool
  | [] => true
  | line :: rest =>
    (rest.isEmpty || decide (IsPassedOver line) || s.code (trim line) == trim line) &&
      (s.after (trim line)).bare rest

end FlowState

/-! ### Counting brackets -/

/-- The quote that the scanner takes to be open, and whether it takes the next character
to be guarded. -/
def FlowMode.quotes : FlowMode → Option Char × Bool
  | single => (some '\'', false)
  | double => (some '"', false)
  | guarded => (some '"', true)
  | token | word | colon | name | tag | angled | comment => (none, false)

/-- The brackets that the scanner counts in a text from here on. -/
def FlowState.balance (s : FlowState) (text : List Char) : Int :=
  bracketBalance s.mode.quotes.1 s.mode.quotes.2 text

section Counting

variable {c : Char} {rest text tail : List Char}

theorem bracketBalance_of_not_quote (h : isQuote c = false) :
    bracketBalance none false (c :: rest) =
      (if opensBracket c then 1 else if closesBracket c then -1 else 0) +
        bracketBalance none false rest := by
  simp only [isQuote, Bool.or_eq_false_iff, beq_eq_false_iff_ne] at h
  simp only [bracketBalance, h.1, h.2, or_self, if_false, opensBracket, closesBracket,
    Bool.or_eq_true, beq_iff_eq, or_comm (a := c = '\x7b'), or_comm (a := c = '\x7d')]
  split
  · rfl
  · split
    · rfl
    · exact (Int.zero_add _).symm

namespace FlowMode

theorem quotes_of_not_verbatim {mode : FlowMode} (h : mode.isVerbatim = false) :
    mode.quotes = (none, false) := by
  cases mode with
  | token | word | colon | name | tag => rfl
  | angled | single | double | guarded | comment => cases h

theorem next_of_isFlowMark {mode : FlowMode} (verbatim : mode.isVerbatim = false)
    (mark : isFlowMark c = true) (spaced : Bool) : mode.next spaced c = .token := by
  cases mode with
  | token | word | colon | name | tag => simp [next, mark]
  | angled | single | double | guarded | comment => cases verbatim

theorem quotes_next_of_not_quote {mode : FlowMode} (verbatim : mode.isVerbatim = false)
    (h : isQuote c = false) (spaced : Bool) : (mode.next spaced c).quotes = (none, false) := by
  simp only [isQuote, Bool.or_eq_false_iff, beq_eq_false_iff_ne] at h
  cases mode with
  | token | word | colon | name | tag =>
    simp only [next, h.1, h.2, if_false]
    split_ifs <;> rfl
  | angled | single | double | guarded | comment => cases verbatim

theorem bracketBalance_of_counts (h : comment.counts c = true) :
    bracketBalance none false (c :: rest) = bracketBalance none false rest := by
  obtain ⟨hquote, hopens, hcloses⟩ :
      isQuote c = false ∧ opensBracket c = false ∧ closesBracket c = false := by
    simpa [counts, and_assoc] using h
  rw [bracketBalance_of_not_quote hquote, hopens, hcloses]
  exact Int.zero_add _

end FlowMode

namespace FlowState

open FlowMode

variable {s : FlowState}

theorem depth_step_of_verbatim (h : s.mode.isVerbatim = true) : (s.step c).depth = s.depth :=
  if_pos h

/-- Some bracket is open, or a character opens one. -/
def IsOpenAt (s : FlowState) (c : Char) : Prop :=
  0 < s.depth ∨ s.mode.isVerbatim = false ∧ opensBracket c = true

/-- Where brackets do not count, the scanner counts none either. -/
theorem balance_cons_of_verbatim (verbatim : s.mode.isVerbatim = true)
    (counts : s.mode.counts c = true) : s.balance (c :: rest) = (s.step c).balance rest := by
  obtain ⟨mode, spaced, depth⟩ := s
  cases mode with
  | single => by_cases hc : c = '\'' <;> simp [balance, bracketBalance, step, next, quotes, hc]
  | double =>
    by_cases hguard : c = '\\'
    · simp [balance, bracketBalance, step, next, quotes, hguard]
    · by_cases hc : c = '"' <;> simp [balance, bracketBalance, step, next, quotes, hguard, hc]
  | guarded => rfl
  | comment => exact bracketBalance_of_counts counts
  | angled =>
    refine (bracketBalance_of_counts counts).trans ?_
    simp only [balance, step, next]
    split <;> rfl
  | token | word | colon | name | tag => cases verbatim

/-- A quote that the scanner takes for what it is opens a quoted scalar. -/
theorem balance_cons_of_quote (verbatim : s.mode.isVerbatim = false)
    (counts : s.mode.counts c = true) (quote : isQuote c = true) :
    (s.step c).depth = s.depth ∧ s.balance (c :: rest) = (s.step c).balance rest := by
  obtain ⟨mode, spaced, depth⟩ := s
  cases mode with
  | token =>
    rcases (Bool.or_eq_true _ _).mp quote with hc | hc <;> obtain rfl := beq_iff_eq.mp hc
    · constructor
      · rfl
      · have hstep : step ⟨.token, spaced, depth⟩ '"' = ⟨.double, false, depth⟩ := rfl
        simp [hstep, balance, bracketBalance, quotes]
    · constructor
      · rfl
      · have hstep : step ⟨.token, spaced, depth⟩ '\'' = ⟨.single, false, depth⟩ := rfl
        simp [hstep, balance, bracketBalance, quotes]
  | word | colon | name | tag => simp [FlowMode.counts, quote] at counts
  | single | double | guarded | comment | angled => cases verbatim

/-- By how much a character changes the number of open brackets. -/
theorem depth_step (verbatim : s.mode.isVerbatim = false) (isOpen : s.IsOpenAt c) :
    ((s.step c).depth : Int) - s.depth =
      if opensBracket c then 1 else if closesBracket c then -1 else 0 := by
  simp only [step, verbatim, Bool.false_eq_true, if_false]
  by_cases hopens : opensBracket c = true
  · rw [if_pos hopens, if_pos hopens]
    omega
  · have hpos : 0 < s.depth := isOpen.resolve_right fun h => hopens h.2
    rw [if_neg hopens, if_neg hopens]
    split <;> omega

/-- **What the scanner counts.** It counts a bracket where one is opened or closed, if it
takes the character for what it is. -/
theorem balance_cons (counts : s.mode.counts c = true) (isOpen : s.IsOpenAt c) :
    s.balance (c :: rest) = (s.step c).depth - s.depth + (s.step c).balance rest := by
  cases hverbatim : s.mode.isVerbatim with
  | true =>
    rw [depth_step_of_verbatim hverbatim, Int.sub_self, Int.zero_add]
    exact balance_cons_of_verbatim hverbatim counts
  | false =>
    cases hquote : isQuote c with
    | true =>
      obtain ⟨hdepth, hsame⟩ := balance_cons_of_quote hverbatim counts hquote
      rw [hdepth, Int.sub_self, Int.zero_add]
      exact hsame
    | false =>
      rw [depth_step hverbatim isOpen, balance, balance]
      simp only [step, quotes_of_not_verbatim hverbatim, quotes_next_of_not_quote hverbatim hquote]
      exact bracketBalance_of_not_quote hquote

/-- Some bracket is open, or the text opens one. -/
def IsOpen (s : FlowState) (text : List Char) : Prop :=
  0 < s.depth ∨ s.mode.isVerbatim = false ∧ ∃ c ∈ text.head?, opensBracket c = true

theorem IsOpen.cons (h : s.IsOpen (c :: rest)) : s.IsOpenAt c := by
  rcases h with h | ⟨hmode, d, ⟨⟩, h⟩
  · exact .inl h
  · exact .inr ⟨hmode, h⟩

theorem isFlowMark_of_closesBracket (h : closesBracket c = true) : isFlowMark c = true := by
  rcases (Bool.or_eq_true _ _).mp h with hc | hc <;> rw [beq_iff_eq.mp hc] <;> rfl

/-- What leaves no bracket open is a closing bracket between tokens. -/
theorem step_of_depth_eq_zero (isOpen : s.IsOpenAt c) (h : (s.step c).depth = 0) :
    closesBracket c = true ∧ (s.step c).mode = .token := by
  cases hverbatim : s.mode.isVerbatim with
  | true =>
    rw [depth_step_of_verbatim hverbatim] at h
    rcases isOpen with pos | ⟨hmode, -⟩
    · exact absurd h (Nat.ne_of_gt pos)
    · rw [hverbatim] at hmode
      cases hmode
  | false =>
    have hdepth := depth_step hverbatim isOpen
    rw [h] at hdepth
    have hcloses : closesBracket c = true := by
      by_contra hcloses
      by_cases hopens : opensBracket c = true
      · rw [if_pos hopens] at hdepth
        omega
      · have hpos : 0 < s.depth := isOpen.resolve_right fun h => hopens h.2
        rw [if_neg hopens, if_neg hcloses] at hdepth
        omega
    exact ⟨hcloses, next_of_isFlowMark hverbatim (isFlowMark_of_closesBracket hcloses) _⟩

/-- The scanner counts the brackets that are left open. -/
theorem balance_run (h : s.cut text = none) (counted : s.countsIn text = true)
    (isOpen : s.IsOpen text) (tail : List Char) :
    s.balance (text ++ tail) = (s.run text).depth - s.depth + (s.run text).balance tail := by
  induction text generalizing s with
  | nil =>
    rw [run, List.foldl_nil, Int.sub_self, Int.zero_add]
    rfl
  | cons c rest ih =>
    rw [cut] at h
    split at h
    · cases h
    · rename_i hdepth
      rw [countsIn, Bool.and_eq_true, if_neg hdepth] at counted
      rw [List.cons_append, balance_cons counted.1 (isOpen.cons),
        ih (Option.map_eq_none_iff.mp h) counted.2 (.inl (Nat.pos_of_ne_zero hdepth))]
      rw [run, run, List.foldl_cons]
      omega

theorem depth_run_pos (h : s.cut text = none) (pos : 0 < s.depth) : 0 < (s.run text).depth := by
  induction text generalizing s with
  | nil => exact pos
  | cons c rest ih =>
    rw [cut] at h
    split at h
    · cases h
    · rename_i hdepth
      rw [run, List.foldl_cons]
      exact ih (Option.map_eq_none_iff.mp h) (Nat.pos_of_ne_zero hdepth)

/-- A text is cut behind a closing bracket. -/
theorem cut_eq_some {through behind : List Char} (h : s.cut text = some (through, behind))
    (isOpen : s.IsOpen text) :
    text = through ++ behind ∧ ∃ before c, through = before ++ [c] ∧ closesBracket c = true := by
  induction text generalizing s through with
  | nil => cases h
  | cons c rest ih =>
    rw [cut] at h
    split at h
    · obtain ⟨rfl, rfl⟩ := Prod.ext_iff.mp (Option.some.inj h)
      exact ⟨rfl, [], c, rfl, (step_of_depth_eq_zero isOpen.cons ‹_›).1⟩
    · rename_i hdepth
      obtain ⟨⟨found, left⟩, hfound, heq⟩ := Option.map_eq_some_iff.mp h
      obtain ⟨rfl, rfl⟩ := Prod.ext_iff.mp heq
      obtain ⟨rfl, before, d, rfl, hd⟩ := ih hfound (.inl (Nat.pos_of_ne_zero hdepth))
      exact ⟨rfl, c :: before, d, rfl, hd⟩

/-- Behind the bracket that leaves none open the scanner counts none either. -/
theorem balance_cut {through behind : List Char} (h : s.cut text = some (through, behind))
    (counted : s.countsIn text = true) (isOpen : s.IsOpen text) : s.balance text ≤ -s.depth := by
  induction text generalizing s through with
  | nil => cases h
  | cons c rest ih =>
    rw [countsIn, Bool.and_eq_true] at counted
    rw [balance_cons counted.1 (isOpen.cons)]
    rw [cut] at h
    split at h
    · rename_i hdepth
      rw [if_pos hdepth, decide_eq_true_eq] at counted
      have hnone : (s.step c).balance rest = openBrackets rest := by
        rw [balance, (step_of_depth_eq_zero isOpen.cons hdepth).2]
        rfl
      rw [hnone, hdepth]
      omega
    · rename_i hdepth
      rw [if_neg hdepth] at counted
      obtain ⟨⟨found, left⟩, hfound, heq⟩ := Option.map_eq_some_iff.mp h
      obtain rfl : left = behind := congrArg Prod.snd heq
      have hrest := ih hfound counted.2 (.inl (Nat.pos_of_ne_zero hdepth))
      omega

/-- The space that the scanner joins lines with is to it what the line break is. -/
theorem balance_space (s : FlowState) (text tail : List Char) :
    (s.run text).balance (' ' :: tail) = (s.after text).balance tail := by
  have hnone : bracketBalance none false (' ' :: tail) = bracketBalance none false tail :=
    FlowMode.bracketBalance_of_counts rfl
  rw [after, balance, balance]
  cases (s.run text).mode with
  | token | word | colon | name | tag | angled | comment => exact hnone
  | single => simp [nextLine, quotes, bracketBalance]
  | double => simp [nextLine, quotes, bracketBalance]
  | guarded => rfl

/-! ### Line by line -/

/-- Nothing of the line is read yet. -/
def IsLineStart (s : FlowState) : Prop := s.mode.nextLine = s.mode ∧ s.spaced = true

theorem isLineStart_after (s : FlowState) (text : List Char) : (s.after text).IsLineStart := by
  refine ⟨?_, rfl⟩
  rw [after]
  cases (s.run text).mode <;> rfl

theorem after_nil (h : s.IsLineStart) : s.after [] = s := by
  obtain ⟨mode, spaced, depth⟩ := s
  obtain ⟨hmode, rfl⟩ := h
  exact congrArg (fun mode => (⟨mode, true, depth⟩ : FlowState)) hmode

theorem step_hash (h : s.IsLineStart) (hmode : s.mode.isVerbatim = false) :
    (s.step '#').mode = .comment ∧ (s.step '#').depth = s.depth := by
  obtain ⟨mode, spaced, depth⟩ := s
  obtain ⟨hstart, rfl⟩ := h
  cases mode with
  | token => exact ⟨rfl, rfl⟩
  | word => exact ⟨rfl, rfl⟩
  | colon | name | tag => cases hstart
  | single | double | guarded | comment | angled => cases hmode

theorem run_comment (h : s.mode = .comment) (text : List Char) :
    (s.run text).mode = .comment ∧ (s.run text).depth = s.depth := by
  induction text generalizing s with
  | nil => exact ⟨h, rfl⟩
  | cons c rest ih =>
    have hnext : (s.step c).mode = .comment := by rw [step, h]; rfl
    obtain ⟨hmode, hdepth⟩ := ih hnext
    rw [depth_step_of_verbatim (by rw [h]; rfl)] at hdepth
    exact ⟨hmode, hdepth⟩

theorem cut_comment (h : s.mode = .comment) (pos : 0 < s.depth) (text : List Char) :
    s.cut text = none := by
  induction text generalizing s with
  | nil => rfl
  | cons c rest ih =>
    have hnext : (s.step c).mode = .comment := by rw [step, h]; rfl
    have hdepth : (s.step c).depth = s.depth := depth_step_of_verbatim (by rw [h]; rfl)
    rw [cut, if_neg (by omega), ih hnext (by omega)]
    rfl

/-- A line that is a comment outside quoted scalars changes nothing to the scanner. -/
theorem after_comment (h : s.IsLineStart) (hmode : s.mode.isVerbatim = false)
    (hash : text.head? = some '#') :
    (s.after text).depth = s.depth ∧ (∀ tail, (s.after text).balance tail = s.balance tail) ∧
      s.code text = [] ∧ (0 < s.depth → s.cut text = none) := by
  obtain ⟨rest, rfl⟩ := List.head?_eq_some_iff.mp hash
  obtain ⟨hcomment, hdepth⟩ := step_hash h hmode
  obtain ⟨hrun, hsame⟩ := run_comment hcomment rest
  refine ⟨hsame.trans hdepth, fun tail => ?_, ?_, fun pos => ?_⟩
  · have hafter : (s.after ('#' :: rest)).mode = .token := by
      rw [after]
      exact congrArg FlowMode.nextLine hrun
    rw [balance, balance, hafter, FlowMode.quotes_of_not_verbatim hmode]
    rfl
  · rw [code, if_pos hcomment]
  · rw [cut, if_neg (by omega), cut_comment hcomment (by omega)]
    rfl

end FlowState

end Counting

end PlaybookStyle.Outline
