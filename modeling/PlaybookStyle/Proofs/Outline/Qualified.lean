/-
Keys with a word before them.

A word before a key, behind its quote if it has one, makes a longer key. Nothing that the
scanner decides by is changed: the line has its colon as before and is no item, and what
stands under the key is read from the same lines. A value on the line begins further to
the right.

* `scan_qualified` — the outline with a longer key.
-/

import PlaybookStyle.Proofs.Outline.Leaves
import PlaybookStyle.Proofs.Outline.Marks
import PlaybookStyle.Proofs.Outline.Trailing

namespace PlaybookStyle.Outline

open Text

/-- A text with a word before it, or behind the quote that it begins with. -/
def qualified (word : List Char) : List Char → List Char
  | [] => word
  | c :: rest => if c = '"' ∨ c = '\'' then c :: (word ++ rest) else word ++ c :: rest

/-- The cut of a line with a word before its key. -/
def KeySplit.qualified (word : List Char) (split : KeySplit) : KeySplit :=
  { split with key := word ++ split.key, colon := byteLength word + split.colon }

/-- A scalar that begins on a line is pushed to the right. -/
def Scalar.pushed (line columns : Nat) (s : Scalar) : Scalar :=
  if s.position.line = line then
    { s with position := ⟨line, s.position.column + columns⟩ }
  else s

def Node.pushed (line columns : Nat) : Node → Node
  | .scalar s => .scalar (s.pushed line columns)
  | n => n

/-- An entry with a word before its key. -/
def Entry.qualified (word : List Char) (e : Entry Node) : Entry Node :=
  { e with
    key := String.ofList (word ++ e.key.toList)
    value := e.value.pushed e.position.line (byteLength word) }

/-- Two sources that differ in a word before the key at a place. The key begins with no
space or tab and is no item. -/
inductive Qualifies (word : List Char) (place : Position) (source source' : List Char) : Prop
  | intro {above below : List (List Char)} {before text : List Char}
      (short : splitLines source = above ++ (before ++ text) :: below)
      (long : splitLines source' = above ++ (before ++ qualified word text) :: below)
      (line : above.length + 1 = place.line) (column : byteLength before + 1 = place.column)
      (starts : ∀ c ∈ text.head?, c ≠ ' ' ∧ c ≠ '\t') (noItem : isItem (trimEnd text) = false)

/-! ### Texts behind a word -/

section Word

variable {word : List Char}

theorem isWordChar_ne_quote {c : Char} (h : isWordChar c = true) : c ≠ '"' ∧ c ≠ '\'' ∧ c ≠ '\\' := by
  refine ⟨?_, ?_, ?_⟩ <;> rintro rfl <;> exact absurd h (by decide)

theorem splitDouble_word (h : word.all isWordChar = true) (text : List Char) :
    splitDouble (word ++ text) = (splitDouble text).map fun found => (word ++ found.1, found.2) := by
  induction word with
  | nil => simp
  | cons c rest ih =>
    obtain ⟨hc, hrest⟩ := Bool.and_eq_true_iff.mp h
    obtain ⟨hquote, -, hbackslash⟩ := isWordChar_ne_quote hc
    rw [List.cons_append, splitDouble, ih hrest, Option.map_map]
    · rfl
    · exact hquote
    · exact fun d others hd _ => hbackslash hd

theorem splitSingle_word (h : word.all isWordChar = true) (text : List Char) :
    splitSingle (word ++ text) = (splitSingle text).map fun found => (word ++ found.1, found.2) := by
  induction word with
  | nil => simp
  | cons c rest ih =>
    obtain ⟨hc, hrest⟩ := Bool.and_eq_true_iff.mp h
    obtain ⟨-, hquote, -⟩ := isWordChar_ne_quote hc
    rw [List.cons_append, splitSingle, ih hrest, Option.map_map]
    · rfl
    · exact fun others hd _ => hquote hd
    · exact hquote

theorem splitQuoted_word (h : word.all isWordChar = true) (quote : Char) (text : List Char) :
    splitQuoted quote (word ++ text) =
      (splitQuoted quote text).map fun found => (word ++ found.1, found.2) := by
  unfold splitQuoted
  split
  · exact splitDouble_word h text
  · exact splitSingle_word h text

theorem splitColon_word (h : word.all isWordChar = true) (text : List Char) :
    splitColon false (word ++ text) =
      (splitColon false text).map fun found => (word ++ found.1, found.2) := by
  induction word with
  | nil => simp
  | cons c rest ih =>
    obtain ⟨hc, hrest⟩ := Bool.and_eq_true_iff.mp h
    obtain ⟨hblank, hash, hcolon⟩ := isWordChar_ne hc
    have hspace : (c == ' ') = false := beq_eq_false_iff_ne.mpr fun hspace => by
      rw [hspace] at hblank
      cases hblank
    rw [List.cons_append, splitColon, if_neg fun mark => hash mark.1, if_neg fun mark => hcolon mark.1,
      hspace, ih hrest, Option.map_map]
    rfl

theorem trimEnd_word (h : word.all isWordChar = true) (text : List Char) :
    trimEnd (word ++ text) = word ++ trimEnd text := by
  induction word with
  | nil => rfl
  | cons c rest ih =>
    obtain ⟨hc, hrest⟩ := Bool.and_eq_true_iff.mp h
    rw [List.cons_append, trimEnd_cons_of_not_isBlank (isWordChar_ne hc).1, ih hrest, List.cons_append]

end Word

/-! ### Lines with a word before their key -/

section Qualified

variable {word text : List Char} {split : KeySplit}

theorem trimEnd_qualified (hword : isWord word = true) (text : List Char) :
    trimEnd (qualified word text) = qualified word (trimEnd text) := by
  have hall := all_isWordChar_of_isWord hword
  cases text with
  | nil =>
    have hself := trimEnd_word hall []
    rwa [List.append_nil, show trimEnd [] = [] from rfl, List.append_nil] at hself
  | cons c rest =>
    rw [qualified]
    split
    · rename_i hquote
      rw [trimEnd_cons_of_not_isBlank (isBlank_quote hquote), trimEnd_word hall,
        trimEnd_cons_of_not_isBlank (isBlank_quote hquote), qualified, if_pos hquote]
    · rename_i hquote
      rw [trimEnd_word hall]
      obtain ⟨tail, htail⟩ := trimEnd_isPrefix (c :: rest)
      cases htrim : trimEnd (c :: rest) with
      | nil => rw [qualified, List.append_nil]
      | cons d more =>
        rw [htrim] at htail
        obtain rfl := (List.cons.inj htail).1
        rw [qualified, if_neg hquote]

/-- With a word before it, a text begins with the word or with its quote. -/
theorem exists_qualified_eq_cons (hword : isWord word = true) (text : List Char) :
    ∃ c rest, qualified word text = c :: rest ∧ (c.isAlpha = true ∨ c = '"' ∨ c = '\'') := by
  cases word with
  | nil => cases hword
  | cons d more =>
    have hd := (Bool.and_eq_true_iff.mp hword).1
    cases text with
    | nil => exact ⟨d, more, rfl, .inl hd⟩
    | cons c rest =>
      rw [qualified]
      split
      · rename_i hquote
        exact ⟨c, _, rfl, .inr hquote⟩
      · exact ⟨d, _, rfl, .inl hd⟩

theorem not_isBlank_of_starts {c : Char} (h : c.isAlpha = true ∨ c = '"' ∨ c = '\'') :
    isBlank c = false ∧ c ≠ '-' ∧ c ≠ '.' ∧ c ≠ '%' ∧ c ≠ '#' := by
  rcases h with h | rfl | rfl
  · have hne : ∀ d : Char, d.isAlpha = false → c ≠ d := by
      rintro d hd rfl
      rw [h] at hd
      cases hd
    exact ⟨(isWordChar_ne (isWordChar_of_isAlpha h)).1, hne _ (by decide), hne _ (by decide),
      hne _ (by decide), hne _ (by decide)⟩
  · decide
  · decide

theorem isItem_qualified (hword : isWord word = true) (text : List Char) :
    isItem (qualified word text) = false := by
  obtain ⟨c, rest, heq, hc⟩ := exists_qualified_eq_cons hword text
  rw [heq]
  exact isItem_of_ne_dash (not_isBlank_of_starts hc).2.1 rest

/-- The key is longer by the word. -/
theorem splitKey_qualified (hword : isWord word = true) (h : splitKey text = some split) :
    splitKey (qualified word text) = some (split.qualified word) := by
  have hall := all_isWordChar_of_isWord hword
  cases splitKey_eq_some_iff.mp h with
  | @quoted quote text inner after value isQuote cut colon ends =>
    have hcut : splitQuoted quote (word ++ text) = some (word ++ inner, after) := by
      rw [splitQuoted_word hall, cut, Option.map_some]
    have hlong := CutAtKey.quoted isQuote hcut colon ends
    rw [byteLength_append, Nat.add_assoc, Nat.add_assoc, ← Nat.add_assoc (byteLength inner)] at hlong
    rw [qualified, if_pos isQuote]
    exact splitKey_eq_some_iff.mpr hlong
  | @plain c more before value noQuote opens cut key =>
    rw [qualified, if_neg noQuote]
    cases word with
    | nil => cases hword
    | cons d front =>
      obtain ⟨hd, -⟩ := Bool.and_eq_true_iff.mp hword
      obtain ⟨-, hdouble, hsingle, hopens⟩ := opensNoKey_of_isAlpha_or (.inl hd)
      have hcut : splitColon false (d :: (front ++ c :: more)) = some (d :: front ++ before, value) := by
        rw [← List.cons_append, splitColon_word hall, cut, Option.map_some]
      have hkey : (trimEnd (d :: front ++ before)).isEmpty = false := by
        rw [trimEnd_word hall]
        rfl
      have hlong := CutAtKey.plain (not_or.mpr ⟨hdouble, hsingle⟩) hopens hcut hkey
      rw [trimEnd_word hall, byteLength_append, byteLength_append, Nat.add_sub_add_left] at hlong
      exact splitKey_eq_some_iff.mpr hlong

theorem isSome_splitColon_qualified (hword : isWord word = true) (text : List Char) :
    (splitColon false (qualified word text)).isSome = (splitColon false text).isSome := by
  have hall := all_isWordChar_of_isWord hword
  have hbefore : ∀ text, (splitColon false (word ++ text)).isSome = (splitColon false text).isSome :=
    fun text => by rw [splitColon_word hall, Option.isSome_map]
  cases text with
  | nil =>
    have hself := hbefore []
    rwa [List.append_nil] at hself
  | cons c rest =>
    rw [qualified]
    split
    · rename_i hquote
      have hplain : c ≠ '#' ∧ c ≠ ':' ∧ (c == ' ') = false := by
        rcases hquote with rfl | rfl <;> decide
      rw [isSome_splitColon_cons hplain.1 hplain.2.1, isSome_splitColon_cons hplain.1 hplain.2.1,
        hplain.2.2, hbefore]
    · exact hbefore _

/-- The line of a key with a word before it. -/
def qualifying (hword : isWord word = true) (hkey : splitKey text = some split)
    (noItem : isItem text = false) (number indent : Nat) : Rewriting where
  number := number
  indent := indent
  old := text
  new := qualified word text
  oldSplit := split
  newSplit := split.qualified word
  oldKey := hkey
  newKey := splitKey_qualified hword hkey
  item := (isItem_qualified hword text).trans noItem.symm
  colon := (isSome_splitColon_qualified hword text).symm.trans

theorem qualifying_fits (hword : isWord word = true) (hkey : splitKey text = some split)
    (noItem : isItem text = false) (number indent : Nat) :
    (qualifying hword hkey noItem number indent).Fits := by
  obtain ⟨c, rest, heq, hc⟩ := exists_qualified_eq_cons hword text
  obtain ⟨hblank, hdash, hdot, hpercent, hash⟩ := not_isBlank_of_starts hc
  have hstart : trimStart (qualified word text) = qualified word text := by
    rw [heq, trimStart_of_not_isBlank hblank]
  refine ⟨.inl hstart, fun _ => ?_, fun hmarker => ?_⟩
  · rw [HasContent, qualifying, hstart, heq]
    exact beq_eq_false_iff_ne.mpr hash
  · rw [qualifying, hstart, heq] at hmarker
    simp [isDocumentMarker, List.isPrefixOf, hdash, hdash.symm, hdot, hpercent.symm] at hmarker

/-! ### What is read behind a longer key -/

variable {source : List Char} {columns : Nat}

theorem pushed_of_behind {line : Nat} {n : Node} (h : n.Everywhere fun place => line < place.line) :
    n.pushed line columns = n := by
  cases h with
  | scalar behind => rw [Node.pushed, Scalar.pushed, if_neg (Nat.ne_of_gt behind)]
  | _ => rfl

/-- A value further to the right is read as it is. -/
theorem valueAt_pushed {number column indent : Nat} {c after : Cursor} {n : Node}
    (found : ValueAt text number column indent c n after)
    (behind : ∀ {n}, NodeAt c n after → n.pushed number columns = n) :
    ValueAt text number (column + columns) indent c (n.pushed number columns) after := by
  have hskip := skipProperties_eq none none column (column + columns) text
  rw [Option.or_none, Option.or_none] at hskip
  cases found with
  | deeper habsent hnext hdeeper found =>
    rw [behind found]
    exact .deeper (by rwa [hskip]) hnext hdeeper found
  | empty habsent hnext => exact .empty (by rwa [hskip]) hnext
  | @scalar _ rest _ _ _ start _ tag? hcut hpresent =>
    obtain ⟨skipped, -, hstart, -⟩ := skipProperties_append none column text
    rw [hcut] at hskip hstart
    dsimp only at hskip hstart
    have hpushed : start - column + (column + columns) = start + columns := by omega
    rw [hpushed] at hskip
    have hscalar := @ValueAt.scalar _ _ number _ indent _ c _ hskip hpresent
    rw [scalarAt, Node.pushed, Scalar.pushed, if_pos rfl]
    exact hscalar

theorem reads_qualifying (hword : isWord word = true) (hkey : splitKey text = some split)
    (noItem : isItem text = false) (number indent : Nat) :
    (qualifying hword hkey noItem number indent).Reads source (fun _ => True)
      (Node.pushed number (byteLength word)) True := by
  intro c c' mid rest n hc hlines hlines' hverbatim found _
  have hpass : c'.pass (qualifying hword hkey noItem number indent).newLine rest =
      c.pass (qualifying hword hkey noItem number indent).oldLine rest := by
    rw [Cursor.pass, Cursor.pass, hverbatim]
    rfl
  have hbehind : ∀ {n mid},
      NodeAt (c.pass (qualifying hword hkey noItem number indent).oldLine rest) n mid →
        n.pushed number (byteLength word) = n := fun found =>
    pushed_of_behind (found.everywhere_behind (hc.pass hlines))
  refine ⟨mid, ?_, fun _ => rfl⟩
  cases found with
  | deeper habsent hnext hdeeper found =>
    rw [hbehind found]
    exact .deeper habsent hnext hdeeper (hpass ▸ found)
  | items habsent hnext hindent hitem found =>
    exact .items habsent hnext hindent hitem (hpass ▸ found)
  | empty habsent hnext => exact hpass ▸ .empty habsent hnext
  | value hpresent found =>
    have hvalue := @valueAt_pushed _ (byteLength word) _ _ _ _ _ _ found hbehind
    have hcolumn : indent + (byteLength word + split.colon) + byteLength split.gap + 2 =
        indent + split.colon + byteLength split.gap + 2 + byteLength word := by omega
    refine .value hpresent ?_
    rw [hpass]
    exact hcolumn ▸ hvalue

end Qualified

/-! ### The text of a key -/

/-- The key of an entry is cut off the text at its place. -/
theorem exists_splitKey_at {source : List Char} {e : Entry Node}
    (he : e ∈ (Outline.scan source).root.allEntries) {above below : List (List Char)}
    {before text : List Char} (lines : splitLines source = above ++ (before ++ text) :: below)
    (line : above.length + 1 = e.position.line) (column : byteLength before + 1 = e.position.column) :
    ∃ split, splitKey (trimEnd text) = some split := by
  obtain ⟨top, htop, inner, split, leads, hkey, hplace, -⟩ := (scan_openings source).opened e he
  have htopNumber : top.number = above.length + 1 := by
    rw [line, ← leads.number_eq, hplace]
    rfl
  have hline := ofLine?_of_mem_ofText htop lines htopNumber
  obtain ⟨dashes, -, htext, hindent, -⟩ := leads.exists_dashes
  obtain ⟨-, hshape, -⟩ := LogicalLine.ofLine?_eq_some_iff.mp hline
  have hspaces : (List.replicate top.indent ' ').all (· == ' ') = true := by simp
  have hsize : byteLength (List.replicate top.indent ' ' ++ dashes) = byteLength before := by
    have hcolumn : inner.indent + 1 = e.position.column := by
      rw [hplace]
      rfl
    rw [byteLength_append, byteLength_eq_length_of_spaces hspaces, List.length_replicate]
    omega
  rw [htext, ← List.append_assoc] at hshape
  -- Blanks would be cut off, and the key with them.
  have hne : trimEnd text ≠ [] := by
    intro hnone
    obtain ⟨cut, hcut, hblank⟩ := exists_append_trimEndOf isBlank text
    rw [← trimEnd, hnone, List.nil_append] at hcut
    obtain ⟨tail, htail⟩ := trimEnd_isPrefix before
    rw [trimEnd, ← hcut, trimEndOf_append_of_all hblank, ← trimEnd] at hshape
    have hlength := congrArg byteLength htail
    rw [hshape, byteLength_append, byteLength_append] at hlength
    cases hinner : inner.text with
    | nil =>
      rw [hinner] at hkey
      cases hkey
    | cons c rest =>
      have hpositive := c.utf8Size_pos
      rw [hinner, byteLength_cons] at hlength
      omega
  rw [trimEnd, trimEndOf_append_of_ne_nil (by rwa [← trimEnd]), ← trimEnd] at hshape
  obtain ⟨-, heq⟩ := append_inj_of_byteLength hshape hsize.symm
  exact ⟨split, heq ▸ hkey⟩

end PlaybookStyle.Outline

/-! ### Outlines with a longer key -/

open PlaybookStyle.Outline PlaybookStyle.Text

namespace PlaybookStyle

/-- **A word before a key changes its entry and nothing else**: the key has the word
before it, and a value on its line is pushed to the right. -/
theorem Outline.scan_qualified {word source source' : List Char} {e : Outline.Entry Node}
    (hword : isWord word = true) (he : e ∈ (Outline.scan source).root.allEntries)
    (h : Qualifies word e.position source source') : Outline.scan source' =
      ⟨(Outline.scan source).root.edit e.position (Entry.qualified word),
        (Outline.scan source).verbatim⟩ := by
  obtain @⟨above, below, before, text, short, long, line, column, -, noItem⟩ := h
  obtain ⟨split, hkey⟩ := exists_splitKey_at he short line column
  let r := qualifying hword hkey noItem e.position.line (byteLength before)
  have hplace : e.position = r.place := by
    rw [← show (⟨e.position.line, e.position.column⟩ : Position) = e.position from rfl, ← column]
    rfl
  have rewrites : r.Rewrites source source' :=
    .intro short long line rfl rfl (trimEnd_qualified hword text)
  have fits : r.Fits := qualifying_fits hword hkey noItem _ _
  rw [(rewrites.scan_rewritten fits (reads_qualifying hword hkey noItem _ _) he hplace trivial).2
    trivial, Node.edit_congr (g := Entry.qualified word)]
  intro other hother same
  obtain ⟨-, hname, hspacing⟩ := rewrites.ahead fits hother (same.trans hplace)
  rw [Rewriting.entry, Entry.qualified, hname, hspacing, same, String.toList_ofList]
  rfl

end PlaybookStyle
