/-
One word as a YAML text.

A word of digits and dashes has nothing in it that the scanner takes for a mark, so
its tokens are one plain scalar and the end of the text, and its value is what
plain text stands for (`Value.read_word`). The scalar may turn out to be a key and
is held back for that while it is short; either way it is delivered before the end.
-/

import PlaybookStyle.Yaml.Read

namespace PlaybookStyle.Yaml

/-! ### Characters of a word -/

def wordChars : List Char := ['-', '0', '1', '2', '3', '4', '5', '6', '7', '8', '9']

/-- A text of digits and dashes that is neither a dash alone nor a mark between
documents. -/
structure IsWordText (text : List Char) : Prop where
  chars : ∀ c ∈ text, c ∈ wordChars
  filled : text ≠ []
  noDash : text ≠ ['-']
  noMark : isDocumentMark text = false

/-- The characters that open or close something where they stand. -/
def markChars : List Char :=
  ['#', ':', '%', '[', '\x7b', ']', '\x7d', ',', '?', '*', '&', '!', '|', '>', '\'', '"', '@', '\x60',
    '\ufeff', ' ', '\t', '\r', '\u2028', '\u2029']

/-- A character of a word is no blank, no break and no mark. -/
theorem class_of_mem_wordChars {c : Char} (h : c ∈ wordChars) :
    isPrintable c = true ∧ isGap c = false ∧ isBreak c = false ∧ isFlowMark c = false ∧
      c ∉ markChars := by
  have hall : wordChars.all (fun c => isPrintable c && !isGap c && !isBreak c && !isFlowMark c &&
      !markChars.contains c) = true := rfl
  simpa [and_assoc] using List.all_eq_true.mp hall c h

/-- No break stands before a word. -/
theorem break?_eq_none {r : Reader} (h : ∀ c ∈ r.rest, c ∈ wordChars) : r.break? = none := by
  unfold Reader.break?
  split
  · rename_i rest hrest
    have hreturn : '\r' ∈ wordChars := h _ (by rw [hrest]; exact List.mem_cons_self)
    exact absurd (class_of_mem_wordChars hreturn).2.2.1 Bool.true_eq_false.mp
  · rename_i c rest _ hrest
    obtain ⟨-, -, hbreak, -, hmark⟩ :=
      class_of_mem_wordChars (h c (by rw [hrest]; exact List.mem_cons_self))
    simp only [markChars, List.mem_cons, List.not_mem_nil, or_false, not_or] at hmark
    simp [hbreak, hmark]
  · rfl

/-! ### Reading the word -/

/-- Of the plain scalar the rest of the word is read to the end. -/
theorem plainContent_word {indent : Nat} {start : Mark} {r : Reader} {content : List Char}
    (chars : ∀ c ∈ r.rest, c ∈ wordChars)
    (noMark : r.mark.column = 0 → isDocumentMark r.rest = false) :
    plainContent false indent start r .empty content =
      .ok ⟨content.reverse ++ r.rest, r.skip r.rest.length, false⟩ := by
  obtain ⟨rest, mark⟩ := r
  induction rest generalizing mark content with
  | nil =>
    rw [plainContent]
    simp [Gap.hasBreak, Gap.empty, Reader.skip, Mark.right]
  | cons c rest ih =>
    have hc : c ∈ wordChars := chars c List.mem_cons_self
    have hbreak := break?_eq_none chars
    obtain ⟨-, hgap, -, -, hmarks⟩ := class_of_mem_wordChars hc
    simp only [markChars, List.mem_cons, List.not_mem_nil, or_false, not_or] at hmarks
    have hmark : (mark.column == 0 && isDocumentMark (c :: rest)) = false := by
      rw [Bool.and_eq_false_imp]
      exact fun h => noMark (beq_iff_eq.mp h)
    have hnext := @ih (c :: content) (mark.right 1)
      (fun d hd => chars d (List.mem_cons_of_mem _ hd)) (fun h => by simp [Mark.right] at h)
    rw [plainContent]
    dsimp only
    rw [hmark, if_neg Bool.false_ne_true]
    split
    · rename_i hsome
      rw [hbreak] at hsome
      cases hsome
    · rw [hgap, if_neg Bool.false_ne_true]
      have hkey : (c == ':') = false := beq_eq_false_iff_ne.mpr hmarks.2.1
      simp only [Gap.empty, Gap.isEmpty, List.isEmpty_nil, hkey, Bool.not_true, Bool.false_and,
        Bool.and_false, Bool.or_false, Bool.false_eq_true, if_false]
      refine hnext.trans ?_
      simp [Reader.skip, Mark.right, Nat.add_comm, Nat.add_left_comm]

/-! ### The tokens of a word -/

section Tokens

variable {text : List Char}

/-- Where no blank, comment, break or order mark stands nothing is stepped over. -/
theorem skipBlanks_of_none {inFlow keyAllowed : Bool} {r : Reader}
    (order : Scanner.skipOrderMark r = r)
    (gaps : r.skipWhile (fun c => c == ' ' || ((inFlow || !keyAllowed) && c == '\t')) = r)
    (comment : r.rest.head? ≠ some '#') (noBreak : r.break? = none) :
    Scanner.skipBlanks inFlow r keyAllowed = (r, keyAllowed) := by
  have hcomment : (r.rest.head? == some '#') = false := beq_eq_false_iff_ne.mpr comment
  rw [Scanner.skipBlanks]
  simp only [order, gaps, hcomment, Bool.false_eq_true, if_false]
  split
  · rename_i hsome
    rw [order, gaps, hcomment, if_neg Bool.false_ne_true, noBreak] at hsome
    cases hsome
  · rfl

/-- Before the first token nothing is stepped over. -/
theorem toNextToken_ofText (word : IsWordText text) :
    (Scanner.ofText text).toNextToken = .ofText text := by
  obtain ⟨c, rest, rfl⟩ := List.exists_cons_of_ne_nil word.filled
  obtain ⟨-, -, -, -, hmarks⟩ := class_of_mem_wordChars (word.chars c List.mem_cons_self)
  simp only [markChars, List.mem_cons, List.not_mem_nil, or_false, not_or] at hmarks
  have hblanks : Scanner.skipBlanks false (.ofText (c :: rest)) true = (.ofText (c :: rest), true) := by
    apply skipBlanks_of_none
    · simp [Scanner.skipOrderMark, Reader.ofText, hmarks]
    · simp [Reader.skipWhile, Reader.ofText, hmarks, Mark.right]
    · simp [Reader.ofText, hmarks]
    · exact break?_eq_none word.chars
  have hnext : (Scanner.ofText (c :: rest)).toNextToken =
      { Scanner.ofText (c :: rest) with
        reader := (Scanner.skipBlanks false (.ofText (c :: rest)) true).1
        keyAllowed := (Scanner.skipBlanks false (.ofText (c :: rest)) true).2 } := rfl
  rw [hnext, hblanks]
  rfl

/-- The scalar that a word is. -/
def Token.word (text : List Char) : Token := ⟨.scalar (String.ofList text) .plain, .start⟩

/-- A scanner behind the word, with some tokens waiting, perhaps for a colon. -/
def Scanner.behindWord (text : List Char) (queue : List Token) (delivered : Nat)
    (candidate? : Option KeyCandidate) : Scanner where
  reader := ⟨[], Mark.start.right text.length⟩
  queue := queue
  delivered := delivered
  columns := []
  candidates := [candidate?]
  keyAllowed := false
  ended := false

/-- The word may be a key as long as a colon can follow. -/
def KeyCandidate.word : KeyCandidate := ⟨false, 0, .start⟩

theorem readToken_word (word : IsWordText text) :
    (Scanner.ofText text).readToken = .ok (.behindWord text [.word text] 0 (some .word)) := by
  obtain ⟨c, rest, rfl⟩ := List.exists_cons_of_ne_nil word.filled
  have hc := word.chars c List.mem_cons_self
  have hplain : (Scanner.ofText (c :: rest)).readPlain =
      .ok (.behindWord (c :: rest) [.word (c :: rest)] 0 (some .word)) := by
    have hcontent : plainContent false 0 .start (.ofText (c :: rest)) .empty [] = _ :=
      plainContent_word word.chars fun _ => word.noMark
    have hread : (Scanner.ofText (c :: rest)).readPlain =
        (plainContent false 0 .start (.ofText (c :: rest)) .empty [] >>= fun scalar =>
          .ok { Scanner.behindWord (c :: rest) [.word scalar.text] 0 (some .word) with
            keyAllowed := scalar.broken
            reader := scalar.after }) := rfl
    rw [hread, hcontent]
    simp [Scanner.behindWord, Reader.skip, Reader.ofText, bind, Except.bind]
  obtain ⟨-, hgap, hbreak, hflow, hmarks⟩ := class_of_mem_wordChars hc
  simp only [markChars, List.mem_cons, List.not_mem_nil, or_false, not_or] at hmarks
  have hdash : c = '-' → blankOrEnd rest = false ∧ rest.head?.any isGap = false := by
    rintro rfl
    cases rest with
    | nil => exact absurd rfl word.noDash
    | cons d more =>
      obtain ⟨-, hd, hd', -⟩ := class_of_mem_wordChars (word.chars d (by simp))
      simp [blankOrEnd, hd, hd']
  have hstarts : Scanner.startsPlain false (c :: rest) = true := by
    by_cases h : c = '-'
    · simp [Scanner.startsPlain, h, (hdash h).2]
    · simp [Scanner.startsPlain, hgap, hbreak, hflow, h, hmarks]
  have hstale : (Scanner.ofText (c :: rest)).dropStale = .ok (.ofText (c :: rest)) := rfl
  have hblock : (Scanner.ofText (c :: rest)).closeBlocks 0 = .ofText (c :: rest) := rfl
  have hitem : (c == '-' && blankOrEnd rest) = false := by
    rw [Bool.and_eq_false_imp]
    exact fun h => (hdash (beq_iff_eq.mp h)).1
  have hinFlow : (Scanner.ofText (c :: rest)).inFlow = false := rfl
  rw [Scanner.readToken, toNextToken_ofText word, hstale]
  simp only [bind, Except.bind]
  rw [show (Scanner.ofText (c :: rest)).mark.column = 0 from rfl, hblock]
  simp only [show (Scanner.ofText (c :: rest)).reader.rest = c :: rest from rfl, word.noMark, hitem,
    hinFlow, hstarts, hplain]
  simp [hmarks]

/-- Behind the word the text ends, and no key comes of the scalar. -/
def Scanner.behindText (text : List Char) (queue : List Token) (delivered : Nat) : Scanner where
  reader := ⟨[], ⟨text.length, 1, 0⟩⟩
  queue := queue
  delivered := delivered
  columns := []
  candidates := [none]
  keyAllowed := false
  ended := true

/-- The end of the text, on a line of its own. -/
def Token.end (text : List Char) : Token := ⟨.streamEnd, ⟨text.length, 1, 0⟩⟩

variable {queue : List Token} {delivered : Nat} {candidate? : Option KeyCandidate}

/-- A candidate that need not be a key is dropped in silence where it is stale. -/
theorem dropStale_behindWord (free : ∀ k ∈ candidate?, k.required = false) :
    (Scanner.behindWord text queue delivered candidate?).dropStale =
      .ok (.behindWord text queue delivered (candidate?.filter fun k =>
        !Scanner.KeyCandidate.isStale k (Mark.start.right text.length))) := by
  cases candidate? with
  | none => rfl
  | some k =>
    have hfree : k.required = false := free k rfl
    simp [Scanner.dropStale, Scanner.behindWord, hfree, Scanner.mark]
    rfl

theorem readEnd_behindWord (filled : text ≠ []) (free : ∀ k ∈ candidate?, k.required = false) :
    (Scanner.behindWord text queue delivered candidate?).readEnd =
      .ok (.behindText text (queue ++ [.end text]) delivered) := by
  have hcolumn : text.length ≠ 0 := fun h => filled (List.length_eq_zero_iff.mp h)
  cases candidate? with
  | none =>
    simp [Scanner.readEnd, Scanner.behindWord, Scanner.behindText, Scanner.closeAllBlocks,
      Scanner.inFlow, Scanner.dropCandidate, Scanner.enqueue, Scanner.mark, Mark.right, Mark.start,
      hcolumn, Token.end, bind, Except.bind, pure, Except.pure]
  | some k =>
    have hfree : k.required = false := free k rfl
    simp [Scanner.readEnd, Scanner.behindWord, Scanner.behindText, Scanner.closeAllBlocks,
      Scanner.inFlow, Scanner.dropCandidate, Scanner.enqueue, Scanner.mark, Mark.right, Mark.start,
      hcolumn, Token.end, hfree, bind, Except.bind, pure, Except.pure]

/-- The word does not lie so far back that it is on another line or out of reach. -/
theorem readToken_behindWord (filled : text ≠ []) (free : ∀ k ∈ candidate?, k.required = false) :
    (Scanner.behindWord text queue delivered candidate?).readToken =
      .ok (.behindText text (queue ++ [.end text]) delivered) := by
  have hblanks : Scanner.skipBlanks false ⟨[], Mark.start.right text.length⟩ false =
      (⟨[], Mark.start.right text.length⟩, false) := by
    apply skipBlanks_of_none
    · simp [Scanner.skipOrderMark]
    · simp [Reader.skipWhile, Mark.right]
    · simp
    · rfl
  have hnext : (Scanner.behindWord text queue delivered candidate?).toNextToken =
      { Scanner.behindWord text queue delivered candidate? with
        reader := (Scanner.skipBlanks false ⟨[], Mark.start.right text.length⟩ false).1
        keyAllowed := (Scanner.skipBlanks false ⟨[], Mark.start.right text.length⟩ false).2 } := rfl
  have hstay : (Scanner.behindWord text queue delivered candidate?).toNextToken =
      .behindWord text queue delivered candidate? := by
    rw [hnext, hblanks]
    rfl
  have hclose : ∀ candidate? column, (Scanner.behindWord text queue delivered candidate?).closeBlocks
      column = .behindWord text queue delivered candidate? := by
    intro candidate? column
    simp [Scanner.closeBlocks, Scanner.behindWord, Scanner.inFlow]
  rw [Scanner.readToken, hstay, dropStale_behindWord free]
  simp only [bind, Except.bind, hclose]
  exact readEnd_behindWord filled fun k hk => free k (Option.mem_filter_iff.mp hk).1

theorem run_behindText {text : List Char} {queue : List Token} {delivered n : Nat}
    {read : List Token} :
    Scanner.run false n (.behindText text queue delivered) read = ⟨read.reverse, none⟩ := by
  cases n <;> rfl

/-- Behind the end of the text all tokens that wait are delivered. -/
theorem deliver_behindText (tokens : List Token) :
    Scanner.deliver tokens.length (.behindText text tokens delivered) =
      .ok (tokens, .behindText text [] (delivered + tokens.length)) := by
  induction tokens generalizing delivered with
  | nil => rfl
  | cons token rest ih =>
    have hfirst : Scanner.deliver (rest.length + 1) (.behindText text (token :: rest) delivered) =
        (Scanner.deliver rest.length (.behindText text rest (delivered + 1)) >>= fun found =>
          .ok (token :: found.1, found.2)) := rfl
    rw [List.length_cons, hfirst, ih]
    simp [bind, Except.bind, Nat.add_assoc, Nat.add_comm 1]

/-- One round of a scanner that reads a text to its end. -/
theorem run_succ {s next last : Scanner} {tokens read : List Token} (running : s.ended = false)
    (readToken : s.readToken = .ok next)
    (deliver : Scanner.deliver next.queue.length next = .ok (tokens, last)) (n : Nat) :
    Scanner.run false (n + 1) s read = Scanner.run false n last (tokens.reverse ++ read) := by
  rw [Scanner.run]
  simp [running, readToken, deliver]

/-- What waits behind the word is delivered with the end of the text. -/
theorem run_behindWord (filled : text ≠ []) (free : ∀ k ∈ candidate?, k.required = false)
    (n : Nat) (read : List Token) :
    Scanner.run false (n + 1) (.behindWord text queue delivered candidate?) read =
      ⟨read.reverse ++ queue ++ [.end text], none⟩ := by
  have hdeliver : Scanner.deliver (queue ++ [Token.end text]).length
      (.behindText text (queue ++ [.end text]) delivered) = _ := deliver_behindText _
  rw [run_succ rfl (readToken_behindWord filled free) hdeliver, run_behindText]
  simp

/-- A word is one scalar. It is delivered at once if it is too long for a key, and
with the end of the text if it is not. -/
theorem scan_word (word : IsWordText text) :
    Token.scan text false = ⟨[.word text, .end text], none⟩ := by
  obtain ⟨n, hn⟩ : ∃ n, text.length = n + 1 :=
    Nat.exists_eq_succ_of_ne_zero fun h => word.filled (List.length_eq_zero_iff.mp h)
  have hfree : ∀ k ∈ some KeyCandidate.word, k.required = false := by
    rintro _ ⟨⟩
    rfl
  have hstale : (Scanner.behindWord text [.word text] 0 (some .word)).dropStale = _ :=
    dropStale_behindWord hfree
  rw [Token.scan, hn]
  by_cases hlong : 1024 < text.length
  · have hdropped : (some KeyCandidate.word).filter (fun k =>
        !Scanner.KeyCandidate.isStale k (Mark.start.right text.length)) = none := by
      simp [Scanner.KeyCandidate.isStale, KeyCandidate.word, Mark.start, Mark.right, hlong]
    have hdeliver : Scanner.deliver 1 (.behindWord text [.word text] 0 (some .word)) =
        .ok ([.word text], .behindWord text [] 1 none) := by
      rw [Scanner.deliver, hstale, hdropped]
      rfl
    rw [run_succ rfl (readToken_word word) hdeliver, run_behindWord word.filled (by simp)]
    rfl
  · have hkept : (some KeyCandidate.word).filter (fun k =>
        !Scanner.KeyCandidate.isStale k (Mark.start.right text.length)) = some .word := by
      simp [Scanner.KeyCandidate.isStale, KeyCandidate.word, Mark.start, Mark.right]
      omega
    have hdeliver : Scanner.deliver 1 (.behindWord text [.word text] 0 (some .word)) =
        .ok ([], .behindWord text [.word text] 0 (some .word)) := by
      rw [Scanner.deliver, hstale, hkept]
      rfl
    rw [run_succ rfl (readToken_word word) hdeliver, run_behindWord word.filled hfree]
    rfl

end Tokens

/-! ### The value of a word -/

/-- The value of plain text that is a document of its own. -/
def Plain.value (text : String) : Plain → Except Error Value
  | .null => .ok .null
  | .boolean b => .ok (.boolean b)
  | .number n => .ok (.number n)
  | .oversized n => .error (.refused Path.root.text (Value.oversizedMessage n) .start)
  | .string => .ok (.string text)

/-- A word has no character that no text may hold. -/
theorem find?_word {text : List Char} (chars : ∀ c ∈ text, c ∈ wordChars)
    (index offset legible taken : Nat) :
    Control.find? index offset legible taken text = none := by
  induction text generalizing index offset legible taken with
  | nil => rfl
  | cons c rest ih =>
    have hc : isPrintable c = true :=
      (class_of_mem_wordChars (chars c List.mem_cons_self)).1
    rw [Control.find?]
    simp only [hc, if_true]
    exact ih (fun d hd => chars d (List.mem_cons_of_mem _ hd)) ..

/-- The document of a word is one scalar. -/
theorem ofText_word {text : String} (word : IsWordText text.toList) :
    Document.ofText text =
      ⟨some (.scalar .start none none text .plain), none, 1,
        [⟨.streamEnd, ⟨text.toList.length, 1, 0⟩⟩]⟩ := by
  have hevents : Event.read text.toList false =
      ⟨[⟨.documentStart, .start⟩, ⟨.scalar .none text .plain, .start⟩,
        ⟨.documentEnd, ⟨text.toList.length, 1, 0⟩⟩,
        ⟨.streamEnd, ⟨text.toList.length, 1, 0⟩⟩], none⟩ := by
    rw [Event.read, scan_word word, Token.word, String.ofList_toList]
    rfl
  rw [Document.ofText, Control.ofText?, find?_word word.chars]
  dsimp only
  rw [hevents]
  rfl

/-- **A word is read as what plain text stands for.** -/
theorem Value.read_word {text : String} (word : IsWordText text.toList) :
    Value.read text = (Plain.ofText text).value text := by
  have huntagged : ∀ s : Surroundings,
      (compose s maximalDepth .root (.scalar .start none none text .plain)).run' 0 =
        (Plain.ofText text).value text := by
    intro s
    have hcompose : compose s maximalDepth .root (.scalar .start none none text .plain) =
        ofUntagged .root .start text .plain := rfl
    rw [hcompose, ofUntagged, if_pos rfl]
    cases Plain.ofText text <;> rfl
  rw [Value.read, ofText_word word, ofDocument]
  dsimp only
  rw [huntagged]
  cases Plain.ofText text <;> rfl

end PlaybookStyle.Yaml
