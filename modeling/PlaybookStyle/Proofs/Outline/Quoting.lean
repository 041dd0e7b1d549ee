/-
Scalars put in double quotes, or out of quotes.

Put between double quotes a text says what it says if it is `Verbatim`: no quote ends it and
no backslash opens an escape or guards the closing quote. Without quotes it says so if the
scanner takes it for plain text, all of it, and nothing behind it (`Bare`).

* `verbatim_iff` — what a text between double quotes says.
* `Retokens.quoted`, `Retokens.bare` — a scalar on one line with its token exchanged for its
  text in double quotes or in none has the same place and the same text.
-/

import PlaybookStyle.Proofs.Outline.Extents
import PlaybookStyle.Proofs.Outline.Swapped

namespace PlaybookStyle.Outline

open Text

/-! ### Texts between double quotes -/

/-- No double quote, and no backslash that stands before one of the five characters of the
escapes or at the end. -/
inductive Verbatim : List Char → Prop
  | nil : Verbatim []
  | plain {c : Char} {rest : List Char} (quote : c ≠ '"') (backslash : c ≠ '\\')
      (more : Verbatim rest) : Verbatim (c :: rest)
  | kept {c : Char} {rest : List Char} (keeps : c ∉ ['n', 't', '"', '\\', '/'])
      (more : Verbatim rest) : Verbatim ('\\' :: c :: rest)

theorem Verbatim.splitDouble {text : List Char} (h : Verbatim text) (after : List Char) :
    splitDouble (text ++ '"' :: after) = some (text, after) := by
  induction h with
  | nil => rfl
  | plain quote backslash _ ih =>
    rw [List.cons_append, Outline.splitDouble, ih]
    · rfl
    · exact quote
    · exact fun d more hcut _ => backslash hcut
  | kept _ _ ih =>
    rw [List.cons_append, List.cons_append, Outline.splitDouble, ih]
    rfl

theorem Verbatim.unescape {text : List Char} (h : Verbatim text) : unescape text = text := by
  induction h with
  | nil => rfl
  | plain _ backslash _ ih =>
    rw [Outline.unescape, ih]
    all_goals
      intros
      exact absurd ‹_ = '\\'› backslash
  | kept keeps _ ih =>
    simp only [List.mem_cons, List.not_mem_nil, or_false, not_or] at keeps
    obtain ⟨hn, ht, hquote, hbackslash, hslash⟩ := keeps
    rw [Outline.unescape, ih] <;> assumption

theorem length_unescape_le (text : List Char) : (unescape text).length ≤ text.length := by
  fun_induction unescape text <;> simp_all <;> omega

theorem Verbatim.of_unescape {text : List Char}
    (closed : ∀ after, Outline.splitDouble (text ++ '"' :: after) = some (text, after))
    (same : Outline.unescape text = text) : Verbatim text := by
  fun_induction Outline.unescape text with
  | case1 rest => cases same
  | case2 rest => cases same
  | case3 rest => cases same
  | case4 rest =>
    have hle := length_unescape_le rest
    have hlength := congrArg List.length (List.cons.inj same).2
    rw [List.length_cons] at hlength
    omega
  | case5 rest => cases same
  | case6 c rest hn ht hquote hbackslash hslash ih =>
    have keeps : c ∉ ['n', 't', '"', '\\', '/'] := by
      simp only [List.mem_cons, List.not_mem_nil, or_false, not_or]
      exact ⟨hn, ht, hquote, hbackslash, hslash⟩
    refine .kept keeps (ih (fun after => ?_) (by simpa using same))
    have hcut := closed after
    rw [List.cons_append, List.cons_append, Outline.splitDouble] at hcut
    simpa [Option.map_eq_some_iff] using hcut
  | case7 c rest _ _ _ _ _ hguard ih =>
    by_cases hquote : c = '"'
    · subst hquote
      cases closed []
    · have hbackslash : c ≠ '\\' := by
        rintro rfl
        cases rest with
        | nil => cases closed []
        | cons d more => exact hguard d more rfl rfl
      refine .plain hquote hbackslash (ih (fun after => ?_) (by simpa using same))
      have hcut := closed after
      rw [List.cons_append, Outline.splitDouble] at hcut
      · simpa [Option.map_eq_some_iff] using hcut
      · exact hquote
      · exact fun d more hd _ => hbackslash hd
  | case8 => exact .nil

/-- **Which texts stay as they are between double quotes.** -/
theorem verbatim_iff (text : List Char) :
    Verbatim text ↔
      (∀ after, splitDouble (text ++ '"' :: after) = some (text, after)) ∧ unescape text = text :=
  ⟨fun h => ⟨h.splitDouble, h.unescape⟩, fun h => .of_unescape h.1 h.2⟩

/-! ### What stands behind a plain scalar -/

theorem exists_beforeComment_append (text : List Char) :
    ∃ cut, text = beforeComment text ++ cut ∧ (cut = [] ∨ ∃ rest, cut = ' ' :: '#' :: rest) := by
  induction text with
  | nil => exact ⟨[], rfl, .inl rfl⟩
  | cons c rest ih =>
    rw [beforeComment]
    split
    · rename_i hmark
      obtain ⟨rfl, hhead⟩ := hmark
      obtain ⟨more, rfl⟩ := List.head?_eq_some_iff.mp hhead
      exact ⟨_, rfl, .inr ⟨more, rfl⟩⟩
    · obtain ⟨cut, hcut, hshape⟩ := ih
      exact ⟨cut, congrArg (c :: ·) hcut, hshape⟩

/-- Nothing, or blanks and then perhaps a comment. -/
inductive Loose : List Char → Prop
  | nothing : Loose []
  | blanks {blanks : List Char} (blank : blanks.all isBlank = true) : Loose blanks
  | comment {blanks text : List Char} (blank : blanks.all isBlank = true) (some : blanks ≠ []) :
      Loose (blanks ++ '#' :: text)

theorem loose_of_stripComment {token tail : List Char} (h : stripComment (token ++ tail) = token)
    (present : token ≠ []) : Loose tail := by
  have hhead : ¬(token ++ tail).head? = some '#' := by
    intro hhead
    rw [stripComment, if_pos hhead] at h
    exact present h.symm
  rw [stripComment, if_neg hhead] at h
  obtain ⟨cut, htext, hshape⟩ := exists_beforeComment_append (token ++ tail)
  obtain ⟨blanks, hblanks, hall⟩ := exists_append_trimEndOf isBlank (beforeComment (token ++ tail))
  rw [← trimEnd, h] at hblanks
  rw [← hblanks, List.append_assoc] at htext
  have htail : tail = blanks ++ cut := List.append_cancel_left htext
  rcases hshape with rfl | ⟨rest, rfl⟩
  · rw [htail, List.append_nil]
    exact .blanks hall
  · have hspace : (blanks ++ [' ']).all isBlank = true := by
      rw [List.all_append, hall]
      rfl
    rw [htail, show blanks ++ ' ' :: '#' :: rest = (blanks ++ [' ']) ++ '#' :: rest by simp]
    exact .comment hspace (List.append_ne_nil_of_right_ne_nil _ (List.cons_ne_nil _ _))

namespace Loose

variable {tail : List Char}

theorem head?_ne (h : Loose tail) {c : Char} (hc : isBlank c = false) : tail.head? ≠ some c := by
  have hblanks : ∀ {blanks more : List Char}, blanks.all isBlank = true → blanks ≠ [] →
      (blanks ++ more).head? ≠ some c := by
    intro blanks more hall hsome hhead
    cases blanks with
    | nil => exact hsome rfl
    | cons d rest =>
      obtain rfl := Option.some.inj hhead
      have hd := (Bool.and_eq_true_iff.mp hall).1
      rw [hc] at hd
      cases hd
  cases h with
  | nothing => simp
  | blanks blank =>
    by_cases hsome : tail = []
    · rw [hsome]
      simp
    · have hne := @hblanks _ [] blank hsome
      rwa [List.append_nil] at hne
  | comment blank some => exact hblanks blank some

theorem dropWhile_space (h : Loose tail) : (tail.dropWhile (· == ' ')).head? ≠ some ':' := by
  have hblanks : ∀ {blanks note : List Char}, blanks.all isBlank = true →
      (note.dropWhile (· == ' ')).head? ≠ some ':' →
        ((blanks ++ note).dropWhile (· == ' ')).head? ≠ some ':' := by
    intro blanks note hall hnote
    induction blanks with
    | nil => exact hnote
    | cons d rest ih =>
      obtain ⟨hd, hrest⟩ := Bool.and_eq_true_iff.mp hall
      by_cases hspace : d = ' '
      · rw [List.cons_append, List.dropWhile_cons_of_pos (by simpa using hspace)]
        exact ih hrest
      · rw [List.cons_append, List.dropWhile_cons_of_neg (by simpa using hspace)]
        intro hhead
        obtain rfl : d = ':' := Option.some.inj hhead
        exact absurd hd (by decide)
  cases h with
  | nothing => simp
  | blanks blank =>
    have hne := @hblanks _ [] blank (by simp)
    rwa [List.append_nil] at hne
  | comment blank =>
    refine hblanks blank ?_
    rw [List.dropWhile_cons_of_neg (by decide)]
    simp

end Loose

/-! ### Keys in quotes -/

/-- Behind a quoted text comes the colon that makes it a key. -/
def opensValue (tail : List Char) : Bool :=
  let rest := tail.dropWhile (· == ' ')
  rest.head? == some ':' && endsKey (rest.drop 1)

theorem isSome_splitKey_quoted {quote : Char} {text inner tail : List Char}
    (hquote : quote = '"' ∨ quote = '\'') (h : splitQuoted quote text = some (inner, tail)) :
    (splitKey (quote :: text)).isSome = opensValue tail := by
  rw [splitKey, if_pos hquote, h]
  dsimp only
  unfold opensValue
  generalize tail.dropWhile (· == ' ') = rest
  split
  · rename_i value
    change (if endsKey value = true then _ else none).isSome = (true && endsKey value)
    cases endsKey value <;> rfl
  · rename_i hnone
    have hhead : rest.head? ≠ some ':' := by
      intro hhead
      obtain ⟨value, hvalue⟩ := List.head?_eq_some_iff.mp hhead
      exact hnone value hvalue
    dsimp only
    rw [beq_eq_false_iff_ne.mpr hhead]
    rfl

theorem Loose.opensValue_eq {tail : List Char} (h : Loose tail) : opensValue tail = false := by
  unfold opensValue
  dsimp only
  rw [beq_eq_false_iff_ne.mpr h.dropWhile_space, Bool.false_and]

/-! ### Colons in quotes -/

/-- A text of which some doubled single quotes are made one. -/
inductive Undoubles : List Char → List Char → Prop
  | nil : Undoubles [] []
  | cons {c : Char} {text text' : List Char} (more : Undoubles text text') :
      Undoubles (c :: text) (c :: text')
  | pair {text text' : List Char} (more : Undoubles text text') :
      Undoubles ('\'' :: '\'' :: text) ('\'' :: text')

theorem Undoubles.refl (text : List Char) : Undoubles text text := by
  induction text with
  | nil => exact .nil
  | cons c rest ih => exact .cons ih

theorem undoubles_undouble (text : List Char) : Undoubles text (undouble text) := by
  fun_induction undouble text with
  | case1 rest ih => exact .pair ih
  | case2 c rest _ ih => exact .cons ih
  | case3 => exact .nil

theorem Undoubles.endsKey_append {text text' : List Char} (h : Undoubles text text')
    {tail tail' : List Char} (ends : endsKey tail' = false)
    (found : endsKey (text' ++ tail') = true) : endsKey (text ++ tail) = true := by
  cases h with
  | nil => exact absurd (ends.symm.trans found) (by decide)
  | cons more => exact found
  | pair more => exact found

/-- In double quotes a text has no colon of a key that it has not without, or in single
quotes. -/
theorem Undoubles.isSome_splitColon {text text' : List Char} (h : Undoubles text text')
    {tail tail' : List Char} (ends : endsKey tail' = false)
    (base : ∀ spaced, (splitColon spaced tail').isSome = true →
      (splitColon spaced tail).isSome = true) (spaced : Bool)
    (found : (splitColon spaced (text' ++ tail')).isSome = true) :
    (splitColon spaced (text ++ tail)).isSome = true := by
  induction h generalizing spaced with
  | nil => exact base spaced found
  | @cons c text text' more ih =>
    rw [List.cons_append, splitColon] at found ⊢
    split at found
    · cases found
    · rename_i hcomment
      rw [if_neg hcomment]
      split at found
      · rename_i hcolon
        rw [if_pos ⟨hcolon.1, more.endsKey_append ends hcolon.2⟩]
        rfl
      · rw [Option.isSome_map] at found
        split
        · rfl
        · rw [Option.isSome_map]
          exact ih _ found
  | pair more ih =>
    simp only [List.cons_append,
      isSome_splitColon_cons (show '\'' ≠ '#' by decide) (show '\'' ≠ ':' by decide)] at found ⊢
    exact ih _ found

/-! ### Scalars on one line -/

/-- A plain scalar may begin with the character. -/
def opensPlain (c : Char) : Bool := c ∉ ['|', '>', '"', '\'', '\x7b', '[']

theorem scalarText_plain {c : Char} (h : opensPlain c = true) (rest : List Char) (parent : Nat)
    (lines : List LogicalLine) :
    scalarText (c :: rest) parent lines =
      (plainText (c :: rest) (spanDeeper parent lines).1, spanDeeper parent lines) := by
  simp only [opensPlain, decide_eq_true_eq, List.mem_cons, List.not_mem_nil, or_false, not_or] at h
  obtain ⟨hliteral, hfolded, hdouble, hsingle, hbrace, hbracket⟩ := h
  exact scalarText_bare parent lines (not_or.mpr ⟨hliteral, hfolded⟩)
    (not_or.mpr ⟨hdouble, hsingle⟩) (not_or.mpr ⟨hbrace, hbracket⟩)

/-- What is between the quotes if none closes. -/
def insideOf (quote : Char) (rest : List Char) : List Char :=
  if rest.getLast? = some quote then rest.dropLast else rest

/-- The token and the text of a scalar on one line, by what stands there from its place on. -/
inductive Scalar.OnLine (s : Scalar) : List Char → Prop
  | plain {c : Char} {rest : List Char} (first : opensPlain c = true)
      (raw : s.raw.toList = stripComment (c :: rest)) (text : s.text = s.raw) : OnLine s (c :: rest)
  | closed {quote : Char} {rest inner tail : List Char} (isQuote : quote = '"' ∨ quote = '\'')
      (cut : splitQuoted quote rest = some (inner, tail))
      (raw : s.raw.toList = quote :: inner ++ [quote])
      (text : s.text.toList = contentOf quote inner) (double : quote = '"' → s.style = .double) :
      OnLine s (quote :: rest)
  | unclosed {quote : Char} {rest : List Char} (isQuote : quote = '"' ∨ quote = '\'')
      (cut : splitQuoted quote rest = none) (raw : s.raw.toList = quote :: rest)
      (text : s.text.toList = contentOf quote (insideOf quote rest))
      (double : quote = '"' → s.style = .double) : OnLine s (quote :: rest)
  | other {text : List Char} (style : s.style ≠ .unquoted ∧ s.style.isQuoted = false) : OnLine s text

theorem quotedScalarText_of_none {quote : Char} {rest : List Char}
    (h : splitQuoted quote rest = none) :
    (quotedScalarText (quote :: rest)).raw = quote :: rest ∧
      (quotedScalarText (quote :: rest)).text = contentOf quote (insideOf quote rest) := by
  simp only [quotedScalarText, h, contentOf, insideOf]
  split <;> exact ⟨rfl, rfl⟩

theorem quotedScalarText_of_some {quote : Char} {rest inner tail : List Char}
    (h : splitQuoted quote rest = some (inner, tail)) :
    (quotedScalarText (quote :: rest)).raw = quote :: inner ++ [quote] := by
  simp only [quotedScalarText, h]
  split <;> rfl

section OnLine

variable {source : List Char} {parent : Nat} {s : Scalar} {old : List Char}

/-- A scalar that ends on its line takes no other. -/
theorem Scalar.Read.taken_eq_nil (h : s.Read source parent) (opens : RestAt source s.position old)
    (single : s.endLine = s.position.line) :
    (scalarText old parent (linesAfter source s.position.line)).2.1 = [] := by
  have htaken := scalarText_append old parent (linesAfter source s.position.line)
  obtain ⟨hnone, -⟩ := taken_eq_linesBetween htaken ((h.taken opens).2.2.2.symm.trans single)
  rw [hnone, linesBetween, cutsBetween, Nat.sub_self, List.take_zero, LogicalLine.ofLines]

theorem Scalar.Read.onLine (h : s.Read source parent) (opens : RestAt source s.position old)
    (single : s.endLine = s.position.line) (present : old ≠ []) : s.OnLine old := by
  have htaken := h.taken_eq_nil opens single
  obtain ⟨hraw, htext, hstyle, -⟩ := h.taken opens
  generalize linesAfter source s.position.line = lines at htaken hraw htext hstyle
  cases old with
  | nil => exact absurd rfl present
  | cons c rest =>
    by_cases hblock : c = '|' ∨ c = '>'
    · refine .other ?_
      rw [hstyle, scalarText_block parent lines hblock]
      dsimp only [blockScalarText]
      split <;> decide
    by_cases hquote : c = '"' ∨ c = '\''
    · rw [scalarText_quoted parent lines hquote] at htaken hraw htext hstyle
      rw [joinWhile_eq_of_taken_nil htaken] at hraw htext hstyle
      have hdouble : c = '"' → s.style = .double := by
        rintro rfl
        rw [hstyle, quotedScalarText]
        rfl
      cases hcut : splitQuoted c rest with
      | none =>
        obtain ⟨hrawEq, htextEq⟩ := quotedScalarText_of_none hcut
        refine .unclosed hquote hcut ?_ ?_ hdouble
        · rw [hraw, String.toList_ofList, hrawEq]
        · rw [htext, String.toList_ofList, htextEq]
      | some found =>
        obtain ⟨inner, tail⟩ := found
        refine .closed hquote hcut ?_ ?_ hdouble
        · rw [hraw, String.toList_ofList, quotedScalarText_of_some hcut]
        · rw [htext, String.toList_ofList, quotedScalarText_text hcut]
    by_cases hflow : c = '\x7b' ∨ c = '['
    · refine .other ?_
      rw [hstyle, scalarText_flow parent lines hflow]
      exact ⟨by rintro ⟨⟩, rfl⟩
    have hplain : opensPlain c = true := by
      simp only [opensPlain, decide_eq_true_eq, List.mem_cons, List.not_mem_nil, or_false]
      tauto
    rw [scalarText_plain hplain] at htaken hraw htext
    refine .plain hplain ?_ (htext.trans hraw.symm)
    rw [hraw, String.toList_ofList, show (spanDeeper parent lines).1 = [] from htaken, plainText,
      List.flatMap_nil, List.append_nil]

end OnLine

/-! ### Tokens exchanged -/

theorem Node.Holds.stands {source : List Char} {n : Node} {holder last : Nat} {s : Scalar}
    (held : n.Holds holder last s)
    (placed : n.Placed source) : s.Stands source := by
  induction held with
  | item hitem value =>
    cases placed with
    | sequence _ _ values =>
      have hvalue := values _ hitem
      rw [value] at hvalue
      cases hvalue with
      | scalar stands => exact stands
  | entry hentry value =>
    cases placed with
    | mapping _ _ values =>
      have hvalue := values _ hentry
      rw [value] at hvalue
      cases hvalue with
      | scalar stands => exact stands
  | inItem hitem _ ih =>
    cases placed with
    | sequence _ _ values => exact ih (values _ hitem)
  | inEntry hentry _ ih =>
    cases placed with
    | mapping _ _ values => exact ih (values _ hentry)

theorem trimEnd_eq_of_append {before text : List Char}
    (h : trimEnd (before ++ text) = before ++ text) : trimEnd text = text := by
  by_cases hnil : trimEnd text = []
  · obtain ⟨blanks, hblanks, hall⟩ := exists_append_trimEndOf isBlank text
    rw [← trimEnd, hnil, List.nil_append] at hblanks
    rw [trimEnd, ← hblanks, trimEndOf_append_of_all hall] at h
    have hle := length_trimEndOf_le isBlank before
    rw [h, List.length_append] at hle
    obtain rfl : blanks = [] := List.length_eq_zero_iff.mp (by omega)
    rw [← hblanks]
    rfl
  · rw [trimEnd, trimEndOf_append_of_ne_nil hnil] at h
    exact List.append_cancel_left h

theorem trimEnd_append_of_trimmed {text : List Char} (h : trimEnd text = text) (after : List Char) :
    trimEnd (text ++ after) = text ++ trimEnd after := by
  by_cases hnil : trimEnd after = []
  · obtain ⟨blanks, hblanks, hall⟩ := exists_append_trimEndOf isBlank after
    rw [← trimEnd, hnil, List.nil_append] at hblanks
    rw [hnil, List.append_nil, trimEnd, ← hblanks, trimEndOf_append_of_all hall]
    exact h
  · exact trimEndOf_append_of_ne_nil hnil text

/-- What a line has from a place on. -/
theorem RestAt.eq_trimEnd {source text before more : List Char} {place : Position}
    (h : RestAt source place text)
    {above below : List (List Char)} (lines : splitLines source = above ++ (before ++ more) :: below)
    (line : above.length + 1 = place.line) (column : byteLength before + 1 = place.column) :
    trimEnd more = text := by
  obtain ⟨cut, before', hcut, htrim, hcolumn⟩ := h
  rw [lines, ← line, Nat.add_sub_cancel, List.getElem?_append_right (Nat.le_refl _), Nat.sub_self] at hcut
  obtain rfl : before ++ more = cut := Option.some.inj hcut
  obtain ⟨blanks, hblanks, hall⟩ := exists_append_trimEndOf isBlank (before ++ more)
  rw [← trimEnd, htrim, List.append_assoc] at hblanks
  obtain ⟨rfl, rfl⟩ := append_inj_of_byteLength hblanks (by omega)
  have hself := trimEnd_trimEnd (before' ++ (text ++ blanks))
  rw [htrim] at hself
  rw [trimEnd, trimEndOf_append_of_all hall]
  exact trimEnd_eq_of_append hself

/-- Two sources that differ in the token at a place; the rest of its line is the same. -/
inductive Retokens (place : Position) (token token' after source source' : List Char) : Prop
  | intro {above below : List (List Char)} {before : List Char}
      (lines : splitLines source = above ++ (before ++ (token ++ after)) :: below)
      (lines' : splitLines source' = above ++ (before ++ (token' ++ after)) :: below)
      (line : above.length + 1 = place.line) (column : byteLength before + 1 = place.column)

section Retokens

variable {source source' after token' : List Char} {holder last : Nat} {s : Scalar}

theorem Retokens.rewords {place : Position} {token : List Char}
    (h : Retokens place token token' after source source') :
    Rewords place (trimEnd (token ++ after)) (trimEnd (token' ++ after)) source source' := by
  obtain ⟨lines, lines', line, column⟩ := h
  exact .intro lines lines' line column rfl rfl

theorem Rewords.symm {place : Position} {old new : List Char}
    (h : Rewords place old new source source') : Rewords place new old source' source := by
  obtain ⟨lines, lines', line, column, oldText, newText⟩ := h
  exact .intro lines' lines line column newText oldText

theorem Rewords.linesAfter_eq {place : Position} {old new : List Char}
    (h : Rewords place old new source source') :
    linesAfter source' place.line = linesAfter source place.line := by
  cases h with
  | @intro above below before text text' lines lines' line column oldText newText =>
    have hdrop : ∀ cut : List Char, (above ++ cut :: below).drop place.line = below := by
      intro cut
      rw [List.append_cons]
      exact List.drop_left' (by rw [List.length_append, ← line]; rfl)
    rw [linesAfter, linesAfter, lines, lines', hdrop, hdrop]

/-- What stands at the place of a scalar, from its token on. -/
theorem Retokens.opens (h : Retokens s.position s.raw.toList token' after source source')
    (held : (Outline.scan source).root.Holds holder last s) :
    RestAt source s.position (trimEnd (s.raw.toList ++ after)) ∧ trimEnd (s.raw.toList ++ after) ≠ [] := by
  obtain ⟨lines, -, line, column⟩ := h
  obtain ⟨text, opens, hcontent, -⟩ := (scan_scalar held).1
  rw [opens.eq_trimEnd lines line column]
  refine ⟨opens, ?_⟩
  rintro rfl
  cases hcontent

/-- What the new token is read as. -/
theorem Retokens.exists_text (h : Retokens s.position s.raw.toList token' after source source')
    (held : (Outline.scan source).root.Holds holder last s)
    (starts : StartsScalar (trimEnd (token' ++ after)))
    (stays : BeginsAlone source s.position →
      StaysAlone (trimEnd (s.raw.toList ++ after)) (trimEnd (token' ++ after))) :
    ∃ s' parent, (Outline.scan source').root.Holds holder last s' ∧ s'.position = s.position ∧
      holder ≤ parent ∧ s'.text = String.ofList (scalarText (trimEnd (token' ++ after)) parent
        (linesAfter source s.position.line)).1.text := by
  obtain ⟨opens, present⟩ := h.opens held
  obtain ⟨s', hheld, hplace⟩ := h.rewords.exists_holds held present starts stays
  obtain ⟨hread, hparent⟩ := scan_scalar hheld
  refine ⟨s', _, hheld, hplace, hparent, ?_⟩
  have presentNew : trimEnd (token' ++ after) ≠ [] := by
    intro hnil
    rw [hnil] at starts
    obtain ⟨c, rest, hcons, -⟩ := starts
    cases hcons
  have opensNew := h.rewords.symm.restAt presentNew
  rw [← hplace] at opensNew
  rw [(hread.taken opensNew).2.1, hplace, h.rewords.linesAfter_eq]

/-! ### Tokens without quotes -/

/-- Written without quotes before the rest of its line, a text is a plain scalar. -/
structure Bare (text after : List Char) : Prop where
  first : ∃ c rest, text = c :: rest ∧ opensPlain c = true ∧ isBlank c = false ∧ c ≠ '#' ∧
    ¬(c = '!' ∨ c = '&')
  whole : stripComment (trimEnd (text ++ after)) = text

/-- **Without quotes a text is read as it is** if it is plain, no line behind it is deeper
than the key or dash that holds it, and it brings no key. -/
theorem Retokens.bare (h : Retokens s.position s.raw.toList s.text.toList after source source')
    (held : (Outline.scan source).root.Holds holder last s) (bare : Bare s.text.toList after)
    (shallow : ∀ next ∈ (linesAfter source s.position.line).head?, next.indent ≤ holder)
    (stays : BeginsAlone source s.position →
      StaysAlone (trimEnd (s.raw.toList ++ after)) (trimEnd (s.text.toList ++ after))) :
    ∃ s', (Outline.scan source').root.Holds holder last s' ∧ s'.position = s.position ∧
      s'.text = s.text := by
  obtain ⟨c, rest, htext, hplain, hblank, hash, hproperty⟩ := bare.first
  have hshape : trimEnd (s.text.toList ++ after) = c :: trimEnd (rest ++ after) := by
    rw [htext]
    exact trimEnd_cons_of_not_isBlank hblank _
  obtain ⟨s', parent, hheld, hplace, hparent, hread⟩ :=
    h.exists_text held ⟨c, _, hshape, hblank, hash, hproperty⟩ stays
  refine ⟨s', hheld, hplace, ?_⟩
  have hnone := spanDeeper_of_le fun next hnext => Nat.le_trans (shallow next hnext) hparent
  rw [hread, hshape, scalarText_plain hplain, hnone, plainText, List.flatMap_nil, List.append_nil,
    ← hshape, bare.whole]
  exact String.ofList_toList

/-! ### Tokens in double quotes -/

/-- A text in double quotes that are closed: it is an item or a key no more often than what
stood there, if its colons stood there too. -/
theorem Verbatim.staysAlone {text tail old : List Char} (h : Verbatim text)
    (key : splitKey old = none → opensValue tail = false)
    (colon : (splitColon false (text ++ '"' :: tail)).isSome = true →
      (splitColon false old).isSome = true) :
    StaysAlone old ('"' :: (text ++ '"' :: tail)) where
  item := isItem_of_ne_dash (by decide) _
  key hnone := by
    refine Option.not_isSome_iff_eq_none.mp ?_
    rw [isSome_splitKey_quoted (.inl rfl) (h.splitDouble tail), key hnone]
    decide
  colon found := by
    rw [isSome_splitColon_cons (by decide) (by decide)] at found
    exact colon found

theorem isSome_splitColon_quote (spaced : Bool) {quote : Char} (h : quote = '"' ∨ quote = '\'')
    (tail : List Char) :
    (splitColon spaced (quote :: tail)).isSome = (splitColon false tail).isSome := by
  rcases h with rfl | rfl <;> exact isSome_splitColon_cons (by decide) (by decide) tail spaced

theorem exists_insideOf_append (quote : Char) (rest : List Char) :
    ∃ more, rest = insideOf quote rest ++ more := by
  unfold insideOf
  split
  · exact (List.dropLast_prefix rest).imp fun _ h => h.symm
  · exact ⟨[], by rw [List.append_nil]⟩

theorem Scalar.OnLine.staysAlone {old tail : List Char} (token : s.OnLine old)
    (style : s.style = .unquoted ∨ s.style = .single) (split : old = s.raw.toList ++ tail)
    (present : s.raw.toList ≠ []) (verbatim : Verbatim s.text.toList) :
    StaysAlone old ('"' :: (s.text.toList ++ '"' :: tail)) := by
  have notDouble : s.style ≠ .double := by rcases style with h | h <;> rw [h] <;> decide
  cases token with
  | @plain c rest first raw text =>
    rw [split] at raw
    have loose := loose_of_stripComment raw.symm present
    refine verbatim.staysAlone (fun _ => loose.opensValue_eq) fun found => ?_
    rw [split, ← text]
    refine (Undoubles.refl _).isSome_splitColon rfl (fun spaced found => ?_) false found
    rw [isSome_splitColon_quote _ (.inl rfl)] at found
    rwa [splitColon_spaced (loose.head?_ne (by decide))]
  | @closed quote rest inner tail' isQuote cut raw text double =>
    obtain rfl : quote = '\'' := isQuote.resolve_left fun h => notDouble (double h)
    have hrest := splitQuoted_append isQuote cut
    obtain rfl : tail' = tail := by
      rw [raw, ← hrest] at split
      simpa using split
    refine verbatim.staysAlone (fun hnone => ?_) fun found => ?_
    · rw [← isSome_splitKey_quoted isQuote cut, hnone]
      rfl
    · rw [text, contentOf, if_neg (by decide)] at found
      rw [isSome_splitColon_quote _ isQuote, ← hrest]
      refine (undoubles_undouble inner).isSome_splitColon rfl (fun spaced found => ?_) false found
      rwa [isSome_splitColon_quote _ isQuote, ← isSome_splitColon_quote spaced (.inl rfl)]
  | @unclosed quote rest isQuote cut raw text double =>
    obtain rfl : quote = '\'' := isQuote.resolve_left fun h => notDouble (double h)
    obtain rfl : tail = [] := by
      rw [raw] at split
      simpa using split
    refine verbatim.staysAlone (fun _ => rfl) fun found => ?_
    rw [text, contentOf, if_neg (by decide)] at found
    obtain ⟨more, hmore⟩ := exists_insideOf_append '\'' rest
    rw [isSome_splitColon_quote _ isQuote, hmore]
    refine (undoubles_undouble _).isSome_splitColon rfl (fun spaced found => ?_) false found
    cases found
  | other other =>
    rcases style with h | h
    · exact absurd h other.1
    · rw [h] at other
      exact absurd other.2 (by decide)

/-- The token of a scalar ends without a blank. -/
theorem Scalar.OnLine.trimEnd_raw {old : List Char} (token : s.OnLine old) (trimmed : trimEnd old = old)
    (style : s.style = .unquoted ∨ s.style = .single) :
    trimEnd s.raw.toList = s.raw.toList := by
  cases token with
  | @plain c rest first raw text =>
    rw [raw, stripComment]
    split
    · rfl
    · exact trimEnd_trimEnd _
  | @closed quote rest inner tail' isQuote cut raw =>
    rw [raw]
    exact trimEnd_append_cons (isBlank_quote isQuote) _ []
  | unclosed _ _ raw =>
    rw [raw]
    exact trimmed
  | other other =>
    rcases style with h | h
    · exact absurd h other.1
    · rw [h] at other
      exact absurd other.2 (by decide)

/-- **Between double quotes a text is read as it is** if it is verbatim. -/
theorem Retokens.quoted
    (h : Retokens s.position s.raw.toList ('"' :: (s.text.toList ++ ['"'])) after source source')
    (held : (Outline.scan source).root.Holds holder last s) (single : s.endLine = s.position.line)
    (style : s.style = .unquoted ∨ s.style = .single) (verbatim : Verbatim s.text.toList) :
    ∃ s', (Outline.scan source').root.Holds holder last s' ∧ s'.position = s.position ∧
      s'.text = s.text := by
  obtain ⟨opens, present⟩ := h.opens held
  have token := (scan_scalar held).1.onLine opens single present
  have hraw := token.trimEnd_raw (trimEnd_trimEnd _) style
  have hsplit := trimEnd_append_of_trimmed hraw after
  have hpresent : s.raw.toList ≠ [] := by
    obtain ⟨c, more, hcons, -⟩ := (held.stands (scan_placed source)).first
    rw [hcons]
    exact List.cons_ne_nil _ _
  have hshape : trimEnd ('"' :: (s.text.toList ++ ['"']) ++ after) =
      '"' :: (s.text.toList ++ '"' :: trimEnd after) := by
    rw [show '"' :: (s.text.toList ++ ['"']) ++ after = ('"' :: s.text.toList) ++ '"' :: after by simp]
    exact trimEnd_append_cons (by decide) _ _
  obtain ⟨s', parent, hheld, hplace, -, hread⟩ := h.exists_text held
    ⟨'"', _, hshape, by decide, by decide, by decide⟩ fun _ => by
      rw [hshape]
      exact token.staysAlone style hsplit hpresent verbatim
  have hcut : splitQuoted '"' (s.text.toList ++ '"' :: trimEnd after) = some (s.text.toList, trimEnd after) :=
    verbatim.splitDouble (trimEnd after)
  have hclosed : isUnclosed ('"' :: (s.text.toList ++ '"' :: trimEnd after)) = false := by
    rw [isUnclosed_cons, hcut]
    rfl
  refine ⟨s', hheld, hplace, ?_⟩
  rw [hread, hshape, scalarText_quoted _ _ (.inl rfl), joinWhile_of_not hclosed]
  dsimp only
  rw [quotedScalarText_text hcut, contentOf, if_pos rfl, verbatim.unescape]
  exact String.ofList_toList

end Retokens

end PlaybookStyle.Outline
